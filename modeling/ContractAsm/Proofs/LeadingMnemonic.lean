-- SUMMARY: When the mnemonic in front of a line is replaced by its opcode.
import ContractAsm.Proofs.Instruction

/-!
# The mnemonic in front of a line

The pass for an instruction with operands takes the mnemonic and the space behind it, and then looks
at the first character of the operands. It is content with another space, an at sign and whatever
starts a word. In front of anything else, such as a quote or a point, the mnemonic stays. Where it
is encoded, the opcode is glued to the operands, and may spell the mnemonic of a later pass with
them. This needs a capital letter, so operands that start with none are safe.
-/

namespace ContractAsm.Instruction

open Text

variable {i j : Instruction}

/-! ## One pass over the front of a line -/

theorem exists_mnemonic_cons (hj : j ∈ table) :
    ∃ c d cs, j.mnemonic = c :: d :: cs ∧ c.isUpper = true ∧ d.isUpper = true := by
  have hall : ∀ j ∈ table, j.mnemonic.head?.any Char.isUpper = true
      ∧ j.mnemonic.tail.head?.any Char.isUpper = true := by decide
  obtain ⟨hfirst, hsecond⟩ := hall j hj
  match hmnemonic : j.mnemonic with
  | [] => simp [hmnemonic] at hfirst
  | [c] => simp [hmnemonic] at hsecond
  | c :: d :: cs =>
    rw [hmnemonic] at hfirst hsecond
    exact ⟨c, d, cs, rfl, hfirst, hsecond⟩

variable {before : Option Char} {c d : Char} {t w y : Text} {found : Unit × Nat}

/-- A line with a mnemonic in front starts with two capital letters. -/
theorem not_isPrefix_of_second (hj : j ∈ table) (hd : d.isUpper = false) :
    ¬j.mnemonic <+: c :: d :: t := by
  rintro ⟨rest, hrest⟩
  obtain ⟨a, b, cs, hmnemonic, -, hb⟩ := exists_mnemonic_cons hj
  rw [hmnemonic] at hrest
  obtain ⟨rfl, -⟩ := List.cons.inj (List.cons.inj hrest).2
  rw [hd] at hb
  cases hb

theorem isUpper_of_recognise (hj : j ∈ table) (h : j.recognise before (c :: t) = some found) :
    c.isUpper = true := by
  obtain ⟨rest, hrest, -⟩ := (occurs_of_recognise h).word
  obtain ⟨a, b, cs, hmnemonic, ha, -⟩ := exists_mnemonic_cons hj
  rw [hmnemonic] at hrest
  obtain ⟨rfl, -⟩ := List.cons.inj hrest
  exact ha

theorem recognise_of_not_isUpper (hj : j ∈ table) (hc : c.isUpper = false) :
    j.recognise before (c :: t) = none := by
  cases hrec : j.recognise before (c :: t) with
  | none => rfl
  | some found =>
    rw [isUpper_of_recognise hj hrec] at hc
    cases hc

theorem recognise_of_second (hj : j ∈ table) (hd : d.isUpper = false) :
    j.recognise before (c :: d :: t) = none := by
  cases hrec : j.recognise before (c :: d :: t) with
  | none => rfl
  | some found =>
    obtain ⟨rest, hrest, -⟩ := (occurs_of_recognise hrec).word
    exact absurd ⟨rest, hrest.symm⟩ (not_isPrefix_of_second hj hd)

theorem recognise_inside (hbefore : before.any isWordChar = true) :
    j.recognise before t = none := by
  cases hrec : j.recognise before t with
  | none => rfl
  | some found =>
    obtain ⟨rest, -, hbreak, -⟩ := (occurs_of_recognise hrec).word
    rw [hbefore] at hbreak
    cases hbreak

theorem replaceFrom_recognised (h : j.recognise before (c :: t) = some found) :
    ∃ s, replaceFrom j.recognise (fun _ => [j.opcode]) before (c :: t) = j.opcode :: s := by
  simp only [replaceFrom, scanFrom, h, List.flatMap_cons, Piece.replace, List.singleton_append]
  exact ⟨_, rfl⟩

/-! ## What a word needs behind it -/

/-- What follows the mnemonic of an instruction with operands in front of a line, where it is
encoded: nothing, or a space and operands. -/
def Admits (y : Text) : Prop :=
  y = [] ∨ y = ['\n'] ∨ ∃ c cs, y = ' ' :: c :: cs ∧ startsOperands c = true

/-- The instruction that is encoded at the front of a line is told by the first word and what
follows it. -/
theorem recognise_word_eq_none_iff (hw : IsWord w) (hj : j.Regular)
    (hy : y.head?.any isWordChar = false) : j.recognise none (w ++ y) = none
      ↔ ¬(w = j.mnemonic ∧ (j.takesOperands = true → Admits y)) := by
  constructor
  · rintro hnone ⟨rfl, hadmits⟩
    obtain ⟨n, hoccurs⟩ : ∃ n, j.Occurs none (j.mnemonic ++ y) n := by
      cases htakes : j.takesOperands with
      | false => exact ⟨_, .bare htakes rfl hy⟩
      | true =>
        rcases hadmits htakes with hnil | hnewline | ⟨c, cs, rfl, hc⟩
        · exact ⟨_, .alone htakes (.inl hnil)⟩
        · exact ⟨_, .alone htakes (.inr hnewline)⟩
        · exact ⟨_, .applied htakes rfl hc⟩
    rw [hoccurs.recognise_eq] at hnone
    cases hnone
  · intro hnot
    cases hrec : j.recognise none (w ++ y) with
    | none => rfl
    | some found =>
      refine absurd ?_ hnot
      obtain ⟨_, n⟩ := found
      have hoccurs := occurs_of_recognise hrec
      obtain ⟨rest, hrest, -, hbreak⟩ := hoccurs.word
      obtain rfl := row_unique hw.2 hj.isWord.2 hy hbreak hrest
      refine ⟨rfl, fun htakes => ?_⟩
      generalize htext : j.mnemonic ++ y = text at hoccurs
      cases hoccurs with
      | bare hbare _ _ =>
        rw [htakes] at hbare
        cases hbare
      | @applied _ c cs _ _ hc => exact .inr (.inr ⟨c, cs, List.append_cancel_left htext, hc⟩)
      | alone _ hrest =>
        rw [List.append_cancel_left htext]
        rcases hrest with rfl | rfl
        · exact .inl rfl
        · exact .inr (.inl rfl)

/-- What passes make of the text behind the first word of a line. Its first character stays, and the
second one too, unless it is a capital letter. -/
structure Kept (y y' : Text) : Prop where
  first : y'.head? = y.head?
  second : y'.tail.head? = y.tail.head?
    ∨ y.tail.head?.any Char.isUpper = true ∧ y'.tail.head?.any isWordChar = true

theorem Kept.refl (y : Text) : Kept y y :=
  ⟨rfl, .inl rfl⟩

theorem Kept.trans {y₁ y₂ y₃ : Text} (h : Kept y₁ y₂) (h' : Kept y₂ y₃) : Kept y₁ y₃ where
  first := h'.first.trans h.first
  second := by
    rcases h.second with heq | ⟨hupper, hword⟩
    · rw [← heq]
      exact h'.second
    · refine .inr ⟨hupper, ?_⟩
      rcases h'.second with heq' | ⟨-, hword'⟩
      · rwa [heq']
      · exact hword'

theorem Kept.admits_iff {y' : Text} (h : Kept y y') : Admits y ↔ Admits y' := by
  have hheads : ∀ z : Text, Admits z ↔ z.head? = none ∨ z.head? = some '\n' ∧ z.tail.head? = none
      ∨ z.head? = some ' ' ∧ z.tail.head?.any startsOperands = true := by
    intro z
    match z with
    | [] => simp [Admits]
    | [c] => simp [Admits]
    | c :: d :: cs => simp [Admits]
  have hword : ∀ z : Option Char, z.any isWordChar = true →
      z ≠ none ∧ z.any startsOperands = true := by
    intro z hz
    cases z with
    | none => cases hz
    | some c => exact ⟨nofun, by simpa [startsOperands] using .inr hz⟩
  rw [hheads, hheads, h.first]
  rcases h.second with heq | ⟨hupper, hword'⟩
  · rw [heq]
  · have hold : y.tail.head?.any isWordChar = true := by
      obtain ⟨c, hc, hcapital⟩ := (Option.any_eq_true _ _).1 hupper
      rw [hc]
      exact isWordChar_of_isUpper hcapital
    simp only [hword _ hold, hword _ hword']

theorem Kept.exists_eq (h : Kept (' ' :: c :: t) y) (hc : c.isUpper = false) :
    ∃ s, y = ' ' :: c :: s := by
  obtain ⟨y, rfl⟩ := List.head?_eq_some_iff.1 h.first
  rcases h.second with hsecond | ⟨hupper, -⟩
  · obtain ⟨s, hs⟩ := List.head?_eq_some_iff.1 hsecond
    exact ⟨s, by rw [← hs, List.tail_cons]⟩
  · have hcapital : c.isUpper = true := by simpa using hupper
    rw [hc] at hcapital
    cases hcapital

theorem kept_replaceFrom (hj : j ∈ table) (hy : y.head?.any isWordChar = false)
    (before : Option Char) :
    Kept y (replaceFrom j.recognise (fun _ => [j.opcode]) before y) := by
  cases y with
  | nil => exact .refl []
  | cons c y =>
    have hc : c.isUpper = false := by
      rw [← Bool.not_eq_true]
      intro hupper
      have hword := isWordChar_of_isUpper hupper
      simp [hword] at hy
    rw [replaceFrom_cons (recognise_of_not_isUpper hj hc)]
    refine ⟨rfl, ?_⟩
    cases y with
    | nil => exact .inl rfl
    | cons d y =>
      cases hrec : j.recognise (some c) (d :: y) with
      | none =>
        rw [replaceFrom_cons hrec]
        exact .inl rfl
      | some found =>
        obtain ⟨s, hs⟩ := replaceFrom_recognised hrec
        rw [hs]
        exact .inr ⟨isUpper_of_recognise hj hrec,
          isWordChar_of_isAlpha (regular_of_mem hj).letter⟩

/-- A pass that finds nothing at the front of a line goes on behind the first word. -/
theorem encodeOne_word (hw : IsWord w) (h : j.recognise none (w ++ y) = none) :
    j.encodeOne (w ++ y)
      = w ++ replaceFrom j.recognise (fun _ => [j.opcode]) (behind none w) y := by
  have hsilent : Silent j.recognise none w y := by
    intro u v huv hv
    rcases List.eq_nil_or_concat u with rfl | ⟨u, c, rfl⟩
    · rw [List.nil_append] at huv
      rwa [← huv]
    · refine recognise_inside ?_
      have hc : isWordChar c = true := hw.2 c (by simp [huv])
      simpa [behind] using hc
  exact replaceFrom_silent hsilent

theorem encodeOne_kept (hj : j ∈ table) (hw : IsWord w) (hy : y.head?.any isWordChar = false)
    (h : j.recognise none (w ++ y) = none) : ∃ y', j.encodeOne (w ++ y) = w ++ y' ∧ Kept y y' :=
  ⟨_, encodeOne_word hw h, kept_replaceFrom hj hy (behind none w)⟩

/-! ## Passes over the front of a line -/

/-- Passes that find nothing at the front of a line keep the first word. -/
theorem encodeEach_kept {js : List Instruction} (hjs : ∀ j ∈ js, j ∈ table) (hw : IsWord w)
    (hy : y.head?.any isWordChar = false) (h : ∀ j ∈ js, j.recognise none (w ++ y) = none) :
    ∃ y', encodeEach js (w ++ y) = w ++ y' ∧ Kept y y' := by
  induction js generalizing y with
  | nil => exact ⟨y, rfl, .refl y⟩
  | cons j js ih =>
    have hregular : ∀ k ∈ j :: js, k.Regular := fun k hk => regular_of_mem (hjs k hk)
    obtain ⟨y₁, hone, hkept⟩ :=
      encodeOne_kept (hjs j (List.mem_cons_self ..)) hw hy (h j (List.mem_cons_self ..))
    have hy₁ : y₁.head?.any isWordChar = false := hkept.first ▸ hy
    obtain ⟨y₂, heach, hkept'⟩ := ih (fun k hk => hjs k (List.mem_cons_of_mem j hk)) hy₁ <| by
      intro k hk
      have hk := List.mem_cons_of_mem j hk
      rw [recognise_word_eq_none_iff hw (hregular k hk) hy₁, ← hkept.admits_iff,
        ← recognise_word_eq_none_iff hw (hregular k hk) hy]
      exact h k hk
    refine ⟨y₂, ?_, hkept.trans hkept'⟩
    rw [encodeEach, List.foldl_cons, hone]
    exact heach

/-- The first character of a line stays or becomes an opcode. -/
theorem encodeEach_head (js : List Instruction) (c : Char) (t : Text) :
    (∃ s, encodeEach js (c :: t) = c :: s)
      ∨ ∃ j ∈ js, ∃ s, encodeEach js (c :: t) = j.opcode :: s := by
  induction js generalizing c t with
  | nil => exact .inl ⟨t, rfl⟩
  | cons j js ih =>
    have hone : (∃ s, j.encodeOne (c :: t) = c :: s)
        ∨ ∃ s, j.encodeOne (c :: t) = j.opcode :: s := by
      cases hrec : j.recognise none (c :: t) with
      | none => exact .inl ⟨_, replaceFrom_cons hrec⟩
      | some found => exact .inr (replaceFrom_recognised hrec)
    rw [encodeEach, List.foldl_cons, ← encodeEach]
    rcases hone with ⟨s, hs⟩ | ⟨s, hs⟩
    · rw [hs]
      rcases ih c s with hstay | ⟨k, hk, hopcode⟩
      · exact .inl hstay
      · exact .inr ⟨k, List.mem_cons_of_mem j hk, hopcode⟩
    · rw [hs]
      rcases ih j.opcode s with hstay | ⟨k, hk, hopcode⟩
      · exact .inr ⟨j, List.mem_cons_self .., hstay⟩
      · exact .inr ⟨k, List.mem_cons_of_mem j hk, hopcode⟩

/-- Where some pass finds its instruction at the front of a line, an opcode comes to the front. -/
theorem encodeEach_recognised {js : List Instruction} (hjs : ∀ j ∈ js, j ∈ table) (hw : IsWord w)
    (hy : y.head?.any isWordChar = false) (h : ∃ j ∈ js, j.recognise none (w ++ y) ≠ none) :
    ∃ j ∈ js, ∃ s, encodeEach js (w ++ y) = j.opcode :: s := by
  induction js generalizing y with
  | nil =>
    obtain ⟨j, hj, -⟩ := h
    cases hj
  | cons j js ih =>
    have hmem := hjs j (List.mem_cons_self ..)
    obtain ⟨a, cs, hcons⟩ := List.exists_cons_of_ne_nil hw.1
    rw [encodeEach, List.foldl_cons, ← encodeEach]
    cases hrec : j.recognise none (w ++ y) with
    | some found =>
      rw [hcons, List.cons_append] at hrec ⊢
      obtain ⟨s, hs⟩ := replaceFrom_recognised hrec
      have hone : j.encodeOne (a :: (cs ++ y)) = j.opcode :: s := hs
      rw [hone]
      rcases encodeEach_head js j.opcode s with hstay | ⟨k, hk, hopcode⟩
      · exact ⟨j, List.mem_cons_self .., hstay⟩
      · exact ⟨k, List.mem_cons_of_mem j hk, hopcode⟩
    | none =>
      -- the pass that finds its instruction is a later one, and will find it still
      obtain ⟨y₁, hone, hkept⟩ := encodeOne_kept hmem hw hy hrec
      have hy₁ : y₁.head?.any isWordChar = false := hkept.first ▸ hy
      obtain ⟨k, hk, hfound⟩ := h
      have hlater : k ∈ js := by
        rcases List.mem_cons.1 hk with rfl | hk
        · exact absurd hrec hfound
        · exact hk
      have hregular := regular_of_mem (hjs k hk)
      rw [hone]
      obtain ⟨l, hl, hopcode⟩ := ih (fun l hl => hjs l (List.mem_cons_of_mem j hl)) hy₁
        ⟨k, hlater, by
          rwa [Ne, recognise_word_eq_none_iff hw hregular hy₁, ← hkept.admits_iff,
            ← recognise_word_eq_none_iff hw hregular hy]⟩
      exact ⟨l, List.mem_cons_of_mem j hl, hopcode⟩

/-- An opcode in front of anything but a capital letter is left alone. -/
theorem encodeEach_opcode {js : List Instruction} (hjs : ∀ j ∈ js, j ∈ table)
    (hc : isWordChar c = true) (hd : d.isUpper = false) (t : Text) :
    ∃ s, encodeEach js (c :: d :: t) = c :: d :: s := by
  induction js generalizing t with
  | nil => exact ⟨t, rfl⟩
  | cons j js ih =>
    have hj := hjs j (List.mem_cons_self ..)
    have hone : j.encodeOne (c :: d :: t)
        = c :: d :: replaceFrom j.recognise (fun _ => [j.opcode]) (some d) t := by
      rw [encodeOne, replaceAll_eq_replaceFrom, replaceFrom_cons (recognise_of_second hj hd),
        replaceFrom_cons (recognise_inside (by simpa using hc))]
    rw [encodeEach, List.foldl_cons, ← encodeEach, hone]
    exact ih (fun k hk => hjs k (List.mem_cons_of_mem j hk)) _

/-! ## A mnemonic and its operands -/

/-- An instruction as it is written in front of operands. -/
def applyTo (i : Instruction) (operands : Text) : Text :=
  i.mnemonic ++ ' ' :: operands

/-- The passes in front of that for an instruction leave its mnemonic alone. -/
theorem encodeEach_earlier (hi : i ∈ table) (c : Char) (r : Text) :
    ∃ y, encodeEach (earlier i) (i.applyTo (c :: r)) = i.mnemonic ++ y
      ∧ Kept (' ' :: c :: r) y := by
  have hword := (regular_of_mem hi).isWord
  refine encodeEach_kept (fun j hj => (mem_table_of_mem_earlier hj).1) hword rfl fun j hj => ?_
  obtain ⟨hmem, hne⟩ := mem_table_of_mem_earlier hj
  rw [recognise_word_eq_none_iff hword (regular_of_mem hmem) rfl]
  exact fun h => hne (eq_of_mnemonic_eq hmem hi h.1.symm)

/-- In front of operands, the pass for an instruction puts its opcode to the front. -/
theorem encodeThrough_applyTo (hi : i ∈ table) (hc : startsOperands c = true) (r : Text) :
    ∃ t, i.encodeThrough (i.applyTo (c :: r)) = i.opcode :: t := by
  have hregular := regular_of_mem hi
  obtain ⟨y, hearlier, hkept⟩ := encodeEach_earlier hi c r
  have hy : y.head?.any isWordChar = false := hkept.first ▸ rfl
  have hadmits : Admits y := hkept.admits_iff.1 (.inr (.inr ⟨c, r, rfl, hc⟩))
  have hfound : i.recognise none (i.mnemonic ++ y) ≠ none := by
    rw [Ne, recognise_word_eq_none_iff hregular.isWord hregular hy, not_not]
    exact ⟨rfl, fun _ => hadmits⟩
  have hself : ∀ j ∈ [i], j ∈ table := by simpa using hi
  obtain ⟨j, hj, hopcode⟩ := encodeEach_recognised hself hregular.isWord hy
    ⟨i, List.mem_singleton_self i, hfound⟩
  rw [List.mem_singleton.1 hj] at hopcode
  rw [encodeThrough, hearlier]
  exact hopcode

/-- Operands that start with no capital letter stay behind the opcode as they start. -/
theorem encodeThrough_applyTo_of_not_isUpper (hi : i ∈ table) (htakes : i.takesOperands = true)
    (hc : startsOperands c = true) (hupper : c.isUpper = false) (r : Text) :
    ∃ t, i.encodeThrough (i.applyTo (c :: r)) = i.opcode :: c :: t := by
  obtain ⟨y, hearlier, hkept⟩ := encodeEach_earlier hi c r
  obtain ⟨s, rfl⟩ := hkept.exists_eq hupper
  rw [encodeThrough, hearlier, encodeOne_applied htakes hc,
    replaceFrom_cons (recognise_of_not_isUpper hi hupper)]
  exact ⟨_, rfl⟩

/-- In front of what starts no operands, the mnemonic stays. -/
theorem encode_applyTo_stays (hi : i ∈ table) (htakes : i.takesOperands = true)
    (hc : startsOperands c = false) (r : Text) :
    ∃ s, encode (i.applyTo (c :: r)) = i.applyTo (c :: s) := by
  have hword := (regular_of_mem hi).isWord
  have hnone : ∀ j ∈ table, j.recognise none (i.mnemonic ++ ' ' :: c :: r) = none := by
    intro j hj
    rw [recognise_word_eq_none_iff hword (regular_of_mem hj) rfl]
    rintro ⟨hmnemonic, hadmits⟩
    obtain rfl := eq_of_mnemonic_eq hi hj hmnemonic
    rcases hadmits htakes with h | h | ⟨d, ds, h, hd⟩
    · cases h
    · cases h
    · cases h
      rw [hc] at hd
      cases hd
  have hupper : c.isUpper = false := by
    rw [← Bool.not_eq_true]
    intro hupper
    have hstarts : startsOperands c = true := by
      simp [startsOperands, isWordChar_of_isUpper hupper]
    rw [hc] at hstarts
    cases hstarts
  obtain ⟨y, hencode, hkept⟩ := encodeEach_kept (fun j hj => hj) hword rfl hnone
  obtain ⟨s, rfl⟩ := hkept.exists_eq hupper
  exact ⟨s, hencode⟩

/-! ## The text of a mnemonic in front of a line -/

theorem exists_first_word (hc : isWordChar c = true) (t : Text) :
    ∃ w y, c :: t = c :: w ++ y ∧ IsWord (c :: w) ∧ y.head?.any isWordChar = false := by
  obtain ⟨w, y, rfl, hw, hy⟩ := exists_stretch isWordChar t
  exact ⟨w, y, rfl, ⟨List.cons_ne_nil c w, .cons hc hw⟩, hy⟩

/-- A row of word characters starts a text just if it starts the first word. -/
theorem isPrefix_append_iff {m : Text} (hm : IsRow m) (hy : y.head?.any isWordChar = false) :
    m <+: w ++ y ↔ m <+: w := by
  constructor
  · rintro ⟨rest, hrest⟩
    rcases List.append_eq_append_iff.1 hrest with ⟨s, rfl, -⟩ | ⟨s, hs, rfl⟩
    · exact ⟨s, rfl⟩
    · cases s with
      | nil => exact ⟨[], by simpa using hs⟩
      | cons d s =>
        have hd : isWordChar d = true := hm d (by simp [hs])
        simp [hd] at hy
  · exact fun h => h.trans (List.prefix_append w y)

/-- Unless a later pass finds its instruction in front, the opcode stays, and the line starts with
the mnemonic just if it did so before these passes. -/
theorem encode_of_not_recognised (hi : i ∈ table) {line : Text}
    (hthrough : i.encodeThrough line = i.opcode :: t)
    (hnone : ∀ j ∈ later i, j.recognise none (i.opcode :: t) = none) :
    (∃ s, encode line = i.opcode :: s)
      ∧ (i.mnemonic <+: encode line ↔ i.mnemonic <+: i.opcode :: t) := by
  have hregular := regular_of_mem hi
  obtain ⟨w, y, hsplit, hw, hy⟩ := exists_first_word (isWordChar_of_isAlpha hregular.letter) t
  rw [hsplit] at hthrough hnone ⊢
  obtain ⟨y', hencode, hkept⟩ :=
    encodeEach_kept (fun j hj => (mem_table_of_mem_later hi hj).1) hw hy hnone
  have hy' : y'.head?.any isWordChar = false := hkept.first ▸ hy
  rw [encode_eq_later hi, hthrough, hencode, isPrefix_append_iff hregular.isWord.2 hy,
    isPrefix_append_iff hregular.isWord.2 hy']
  exact ⟨⟨w ++ y', rfl⟩, Iff.rfl⟩

/-- If a later pass finds its instruction in front, another opcode comes there. -/
theorem encode_of_recognised (hi : i ∈ table) {line : Text}
    (hthrough : i.encodeThrough line = i.opcode :: t)
    (hfound : ∃ j ∈ later i, j.recognise none (i.opcode :: t) ≠ none) :
    ∃ j ∈ later i, ∃ s, encode line = j.opcode :: s := by
  obtain ⟨w, y, hsplit, hw, hy⟩ :=
    exists_first_word (isWordChar_of_isAlpha (regular_of_mem hi).letter) t
  rw [hsplit] at hthrough hfound
  rw [encode_eq_later hi, hthrough]
  exact encodeEach_recognised (fun j hj => (mem_table_of_mem_later hi hj).1) hw hy hfound

/-- A mnemonic in front of operands gives way to its own opcode, and its text is gone from the front
of the line, exactly under three conditions: the first character may start operands, no later pass
finds its instruction where the opcode was put, and the opcode does not complete the operands to the
text of the mnemonic. Without the first one the mnemonic stays. With it alone some opcode comes to
the front, and it is the right one if the operands start with no capital letter. -/
theorem encode_applyTo_iff (i : Instruction) (hi : i ∈ table) (htakes : i.takesOperands = true)
    (c : Char) (r : Text) :
    ((∃ s, encode (i.applyTo (c :: r)) = i.opcode :: s)
        ∧ ¬i.mnemonic <+: encode (i.applyTo (c :: r))
      ↔ startsOperands c = true
        ∧ (∀ j ∈ later i, j.recognise none (i.encodeThrough (i.applyTo (c :: r))) = none)
        ∧ ¬i.mnemonic <+: i.encodeThrough (i.applyTo (c :: r)))
    ∧ (startsOperands c = false → ∃ s, encode (i.applyTo (c :: r)) = i.applyTo (c :: s))
    ∧ (startsOperands c = true →
      ∃ j ∈ i :: later i, ∃ s, encode (i.applyTo (c :: r)) = j.opcode :: s)
    ∧ (startsOperands c = true → c.isUpper = false →
      (∃ s, encode (i.applyTo (c :: r)) = i.opcode :: c :: s)
        ∧ ¬i.mnemonic <+: encode (i.applyTo (c :: r))) := by
  refine ⟨⟨?_, ?_⟩, fun hc => encode_applyTo_stays hi htakes hc r, fun hc => ?_,
    fun hc hupper => ?_⟩
  · rintro ⟨⟨s, hs⟩, hnot⟩
    cases hc : startsOperands c with
    | false =>
      obtain ⟨s', hs'⟩ := encode_applyTo_stays hi htakes hc r
      exact absurd ⟨' ' :: c :: s', hs'.symm⟩ hnot
    | true =>
      obtain ⟨t, ht⟩ := encodeThrough_applyTo hi hc r
      have hnone : ∀ j ∈ later i, j.recognise none (i.opcode :: t) = none := by
        -- the opcode of a later pass would not be this one
        by_contra hsome
        push Not at hsome
        obtain ⟨j, hj, s', hs'⟩ := encode_of_recognised hi ht hsome
        obtain ⟨hmem, hne⟩ := mem_table_of_mem_later hi hj
        rw [hs] at hs'
        exact hne (eq_of_opcode_eq hmem hi (List.cons.inj hs').1.symm)
      rw [ht, ← (encode_of_not_recognised hi ht hnone).2]
      exact ⟨rfl, hnone, hnot⟩
  · rintro ⟨hc, hnone, hnot⟩
    obtain ⟨t, ht⟩ := encodeThrough_applyTo hi hc r
    rw [ht] at hnone hnot
    obtain ⟨hopcode, hiff⟩ := encode_of_not_recognised hi ht hnone
    exact ⟨hopcode, fun h => hnot (hiff.1 h)⟩
  · obtain ⟨t, ht⟩ := encodeThrough_applyTo hi hc r
    rw [encode_eq_later hi, ht]
    rcases encodeEach_head (later i) i.opcode t with hstay | ⟨j, hj, hopcode⟩
    · exact ⟨i, List.mem_cons_self .., hstay⟩
    · exact ⟨j, List.mem_cons_of_mem i hj, hopcode⟩
  · obtain ⟨t, ht⟩ := encodeThrough_applyTo_of_not_isUpper hi htakes hc hupper r
    obtain ⟨s, hs⟩ := encodeEach_opcode (fun j hj => (mem_table_of_mem_later hi hj).1)
      (isWordChar_of_isAlpha (regular_of_mem hi).letter) hupper t
    rw [encode_eq_later hi, ht, hs]
    exact ⟨⟨s, rfl⟩, not_isPrefix_of_second hi hupper⟩

/-- Operands that hold mnemonics of their own, one of them in front. -/
theorem encode_applyTo_iff_nested :
    operator "HASH" 'G' ∈ table ∧ (operator "HASH" 'G').takesOperands = true
      ∧ (∃ s, encode "HASH EVAL8 STOP,".toList = 'G' :: s)
      ∧ ¬"HASH".toList <+: encode "HASH EVAL8 STOP,".toList := by
  have hhash : operator "HASH" 'G' ∈ table := by decide
  obtain ⟨hiff, -⟩ := encode_applyTo_iff (operator "HASH" 'G') hhash rfl 'E' "VAL8 STOP,".toList
  exact ⟨hhash, rfl, hiff.2 ⟨by decide, by decide +kernel, by decide +kernel⟩⟩

/-- A quote starts no operands, and an opcode may be taken for a part of another mnemonic or of its
own. -/
theorem encode_applyTo_missed :
    encode "EVAL8 \"test\",".toList = "EVAL8 \"test\",".toList
      ∧ encode "EVAL8 LLOC 1,".toList = "S1,".toList
      ∧ encode "EVAL256 VAL256,".toList = "EVAL256,".toList := by
  decide +kernel

end ContractAsm.Instruction
