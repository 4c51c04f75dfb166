-- SUMMARY: What one pass of the encoding does, and lines with one mnemonic in front.
import ContractAsm.Instruction
import ContractAsm.Proofs.Word
import Mathlib.Data.List.Nodup

/-!
# Encoding of instructions

What a single pass of the encoding can do is said once, by the occurrences of an instruction. Each
of them is a whole word, so a pass leaves alone every text without that word, and a line with one
mnemonic in front is encoded by the pass for that mnemonic only.
-/

namespace ContractAsm.Instruction

open Text

/-! ## The table -/

/-- What the instructions of the table have in common. -/
structure Regular (i : Instruction) : Prop where
  long : 2 ≤ i.mnemonic.length
  capital : ∀ c ∈ i.mnemonic, (c.isUpper || c.isDigit) = true
  second : i.mnemonic[1]?.any Char.isUpper = true
  letter : i.opcode.isAlpha = true

/-- Every instruction of the table is regular. -/
theorem regular_of_mem {i : Instruction} (hi : i ∈ table) : i.Regular := by
  have hall : ∀ i ∈ table, 2 ≤ i.mnemonic.length
      ∧ i.mnemonic.all (fun c => c.isUpper || c.isDigit) = true
      ∧ i.mnemonic[1]?.any Char.isUpper = true ∧ i.opcode.isAlpha = true := by decide
  obtain ⟨hlong, hcapital, hsecond, hletter⟩ := hall i hi
  exact ⟨hlong, List.all_eq_true.1 hcapital, hsecond, hletter⟩

/-- No mnemonic is listed twice. -/
theorem nodup_mnemonics : (table.map (·.mnemonic)).Nodup := by decide

theorem eq_of_mnemonic_eq {i j : Instruction} (hi : i ∈ table) (hj : j ∈ table)
    (h : i.mnemonic = j.mnemonic) : i = j :=
  List.inj_on_of_nodup_map nodup_mnemonics hi hj h

/-- No two instructions share an opcode. -/
theorem eq_of_opcode_eq {i j : Instruction} (hi : i ∈ table) (hj : j ∈ table)
    (h : i.opcode = j.opcode) : i = j := by
  have hnodup : (table.map (·.opcode)).Nodup := by decide
  exact List.inj_on_of_nodup_map hnodup hi hj h

theorem Regular.isWord {i : Instruction} (hi : i.Regular) : IsWord i.mnemonic := by
  refine ⟨?_, ?_⟩
  · intro hnil
    have hlong := hi.long
    rw [hnil] at hlong
    simp at hlong
  · intro c hc
    rcases Bool.or_eq_true_iff.1 (hi.capital c hc) with h | h
    · exact isWordChar_of_isUpper h
    · exact isWordChar_of_isDigit h

theorem Regular.isWord_opcode {i : Instruction} (hi : i.Regular) : IsWord [i.opcode] := by
  refine ⟨List.cons_ne_nil _ _, ?_⟩
  intro c hc
  rw [List.mem_singleton.1 hc]
  exact isWordChar_of_isAlpha hi.letter

/-- An opcode is no digit, so it is told apart from operands. -/
theorem Regular.not_isDigit {i : Instruction} (hi : i.Regular) : i.opcode.isDigit = false := by
  have hletter := isAlpha_iff.1 hi.letter
  rw [← Bool.not_eq_true, isDigit_iff]
  omega

theorem Regular.exists_isUpper {i : Instruction} (hi : i.Regular) :
    ∃ c ∈ i.mnemonic.tail, c.isUpper = true := by
  obtain ⟨c, hc, hupper⟩ := (Option.any_eq_true _ _).1 hi.second
  refine ⟨c, ?_, hupper⟩
  cases hmnemonic : i.mnemonic with
  | nil => simp [hmnemonic] at hc
  | cons d ds => exact List.mem_of_getElem? (i := 0) (by simpa [hmnemonic] using hc)

/-- No mnemonic is a word of a text without capitals, even with one more character in front. -/
theorem Regular.not_mem_words {i : Instruction} (hi : i.Regular) {c : Char} {t : Text}
    (hc : isWordChar c = true) (ht : ∀ d ∈ t, d.isUpper = false) :
    i.mnemonic ∉ words (c :: t) ∧ i.mnemonic ∉ words t := by
  obtain ⟨d, hd, hupper⟩ := hi.exists_isUpper
  have hnot : d ∉ t := fun hmem => by simp [ht d hmem] at hupper
  constructor
  · intro hmem
    obtain ⟨v, hv, hfirst | hlater⟩ := mem_words_cons hc hmem
    · rw [hfirst] at hd
      exact hnot (hv d hd)
    · rw [hlater] at hd
      exact hnot (hv d (List.mem_of_mem_tail hd))
  · intro hmem
    exact hnot ((mem_words hmem).2 d (List.mem_of_mem_tail hd))

/-! ## The order of the table -/

/-- The instructions whose passes come before that of an instruction. -/
def earlier (i : Instruction) : List Instruction :=
  table.takeWhile (· != i)

/-- The instructions whose passes come behind that of an instruction. -/
def later (i : Instruction) : List Instruction :=
  (table.dropWhile (· != i)).tail

variable {i j : Instruction}

/-- An instruction stands between those that are encoded before it and those after it. -/
theorem table_eq (hi : i ∈ table) : table = earlier i ++ i :: later i := by
  obtain ⟨front, back, hsplit, hfront⟩ := List.eq_append_cons_of_mem hi
  have hpass : ∀ j ∈ front, (j != i) = true := by
    intro j hj
    rw [bne_iff_ne]
    rintro rfl
    exact hfront hj
  have hearlier : earlier i = front := by
    rw [earlier, hsplit, List.takeWhile_append_of_pos hpass, List.takeWhile_cons_of_neg (by simp),
      List.append_nil]
  have hlater : later i = back := by
    rw [later, hsplit, List.dropWhile_append_of_pos hpass, List.dropWhile_cons_of_neg (by simp),
      List.tail_cons]
  rw [hearlier, hlater, hsplit]

theorem mem_table_of_mem_earlier (h : j ∈ earlier i) : j ∈ table ∧ j ≠ i :=
  ⟨(List.takeWhile_sublist _).subset h, by simpa using List.mem_takeWhile_imp h⟩

theorem mem_table_of_mem_later (hi : i ∈ table) (h : j ∈ later i) : j ∈ table ∧ j ≠ i := by
  have hnodup : table.Nodup := nodup_mnemonics.of_map
  refine ⟨by rw [table_eq hi]; simp [h], ?_⟩
  rintro rfl
  rw [table_eq hi] at hnodup
  exact (List.nodup_cons.1 (List.nodup_append.1 hnodup).2.1).1 h

/-! ## Occurrences -/

/-- An instruction at a place of a text: what stands in front of the place, what follows it, and
how much of that is taken. -/
inductive Occurs (i : Instruction) : Option Char → Text → Nat → Prop where
  | bare {before : Option Char} {rest : Text} : i.takesOperands = false →
      before.any isWordChar = false → rest.head?.any isWordChar = false →
      Occurs i before (i.mnemonic ++ rest) i.mnemonic.length
  | applied {before : Option Char} {c : Char} {rest : Text} : i.takesOperands = true →
      before.any isWordChar = false → startsOperands c = true →
      Occurs i before (i.mnemonic ++ ' ' :: c :: rest) (i.mnemonic.length + 1)
  | alone {rest : Text} : i.takesOperands = true → rest = [] ∨ rest = ['\n'] →
      Occurs i none (i.mnemonic ++ rest) i.mnemonic.length

variable {before : Option Char} {t : Text} {n : Nat}

theorem Occurs.recognise_eq (h : i.Occurs before t n) : i.recognise before t = some ((), n) := by
  have hfront : ∀ rest, i.mnemonic.isPrefixOf? (i.mnemonic ++ rest) = some rest :=
    fun rest => List.isPrefixOf?_eq_some_iff_append_eq.2 rfl
  cases h with
  | bare htakes hbefore hrest => simp [recognise, hfront, htakes, hbefore, hrest]
  | @applied _ c _ htakes hbefore hc =>
    unfold recognise
    simp only [hfront, hbefore, htakes]
    rw [if_pos hc]
    rfl
  | alone htakes hrest =>
    unfold recognise
    rw [hfront]
    rcases hrest with rfl | rfl
    · simp [htakes]
    · simp [htakes]

theorem occurs_of_recognise (h : i.recognise before t = some ((), n)) : i.Occurs before t n := by
  unfold recognise at h
  split at h
  · cases h
  · next rest hrest =>
    rw [List.isPrefixOf?_eq_some_iff_append_eq] at hrest
    subst hrest
    split at h
    · cases h
    · next hbefore =>
      rw [Bool.not_eq_true] at hbefore
      split at h
      · next htakes =>
        split at h
        · split at h
          · next hc =>
            cases h
            exact .applied htakes hbefore hc
          · cases h
        · split at h
          · next hnone =>
            cases h
            rw [Option.isNone_iff_eq_none] at hnone
            subst hnone
            exact .alone htakes (.inl rfl)
          · cases h
        · split at h
          · next hnone =>
            cases h
            rw [Option.isNone_iff_eq_none] at hnone
            subst hnone
            exact .alone htakes (.inr rfl)
          · cases h
        · cases h
      · next htakes =>
        rw [Bool.not_eq_true] at htakes
        split at h
        · cases h
        · next hrest =>
          cases h
          rw [Bool.not_eq_true] at hrest
          exact .bare htakes hbefore hrest

/-- A mnemonic is recognised just where it occurs. -/
theorem recognise_eq_some_iff : i.recognise before t = some ((), n) ↔ i.Occurs before t n :=
  ⟨occurs_of_recognise, Occurs.recognise_eq⟩

/-- Where an instruction occurs, its mnemonic is a word of its own. -/
theorem Occurs.word (h : i.Occurs before t n) : ∃ rest, t = i.mnemonic ++ rest
    ∧ before.any isWordChar = false ∧ rest.head?.any isWordChar = false := by
  cases h with
  | @bare _ rest _ hbefore hrest => exact ⟨rest, rfl, hbefore, hrest⟩
  | @applied _ c rest _ hbefore _ => exact ⟨' ' :: c :: rest, rfl, hbefore, rfl⟩
  | @alone rest _ hrest =>
    refine ⟨rest, rfl, rfl, ?_⟩
    rcases hrest with rfl | rfl
    · rfl
    · rfl

/-- A stretch that does not hold the mnemonic as a word has no occurrence in it, if no word goes on
behind it. -/
theorem silent_of_not_mem_words {x rest : Text} (hi : i.Regular)
    (hrest : rest.head?.any isWordChar = false) (hx : i.mnemonic ∉ words x) :
    Silent i.recognise before x rest := by
  intro u v hxv hv
  cases hrec : i.recognise (behind before u) (v ++ rest) with
  | none => rfl
  | some found =>
    obtain ⟨after, hafter, hbefore, hbreak⟩ := (occurs_of_recognise hrec).word
    refine absurd ?_ hx
    have hu : u.getLast?.any isWordChar = false := by
      rcases List.eq_nil_or_concat u with rfl | ⟨u, c, rfl⟩
      · rfl
      · simpa [behind] using hbefore
    -- the mnemonic ends inside of the stretch, since none of its characters is a break
    rcases List.append_eq_append_iff.1 hafter with ⟨s, hs, hrest'⟩ | ⟨s, hs, hrest'⟩
    · cases s with
      | nil =>
        rw [List.append_nil] at hs
        have hmem := mem_words_between (v := []) hi.isWord hu rfl
        rw [List.append_nil, hs, ← hxv] at hmem
        rwa [hs]
      | cons c s =>
        have hc : isWordChar c = true := hi.isWord.2 c (by simp [hs])
        rw [hrest'] at hrest
        simp [hc] at hrest
    · rw [hxv, hs]
      apply mem_words_between hi.isWord hu
      cases s with
      | nil => rfl
      | cons c s =>
        rw [hrest'] at hbreak
        simpa using hbreak

/-! ## One pass -/

/-- Without the mnemonic among its words, a line stays as it is. -/
theorem encodeOne_eq_self {line : Text} (hi : i.Regular) (h : i.mnemonic ∉ words line) :
    i.encodeOne line = line :=
  replaceFrom_eq_self (silent_of_not_mem_words hi rfl h)

/-- An instruction without operands is encoded wherever its mnemonic is a word. -/
theorem encodeOne_bare (hi : i.Regular) (htakes : i.takesOperands = false) (line : Text) :
    i.encodeOne line = mapWords (fun w => if w = i.mnemonic then [i.opcode] else w) line := by
  have hrule : i.recognise = wordRule i.mnemonic := by
    funext before t
    unfold recognise wordRule
    cases i.mnemonic.isPrefixOf? t with
    | none => rfl
    | some rest =>
      simp only [htakes]
      cases before.any isWordChar with
      | true => rfl
      | false => rfl
  rw [encodeOne, hrule, replaceAll_wordRule hi.isWord]

/-- An instruction with operands needs a space behind it, unless it is the whole line. -/
theorem encodeOne_of_no_space {line : Text} (htakes : i.takesOperands = true)
    (hspace : ' ' ∉ line) (halone : line ≠ i.mnemonic) (hfinal : line ≠ i.mnemonic ++ ['\n']) :
    i.encodeOne line = line := by
  apply replaceFrom_eq_self
  intro u v huv _
  cases hrec : i.recognise (behind none u) (v ++ []) with
  | none => rfl
  | some found =>
    obtain ⟨_, n⟩ := found
    have hoccurs := occurs_of_recognise hrec
    rw [List.append_nil] at hoccurs
    have hsub : ∀ c ∈ v, c ∈ line := fun c hc => by simp [huv, hc]
    -- an instruction without its space has to start the line
    have hu : behind none u = none → u = [] := by
      intro hnone
      simpa [behind] using hnone
    generalize behind none u = front at hoccurs hu
    cases hoccurs with
    | bare hbare _ _ =>
      rw [htakes] at hbare
      cases hbare
    | applied _ _ _ => exact absurd (hsub ' ' (by simp)) hspace
    | alone _ hrest =>
      rw [hu rfl, List.nil_append] at huv
      rcases hrest with rfl | rfl
      · rw [List.append_nil] at huv
        exact absurd huv halone
      · exact absurd huv hfinal

/-- The pass for an instruction takes the mnemonic in front of a line and the space behind it. -/
theorem encodeOne_applied {c : Char} {r : Text} (htakes : i.takesOperands = true)
    (hc : startsOperands c = true) :
    i.encodeOne (i.mnemonic ++ ' ' :: c :: r)
      = i.opcode :: replaceFrom i.recognise (fun _ => [i.opcode]) (some ' ') (c :: r) := by
  have hoccurs : i.Occurs none (i.mnemonic ++ ' ' :: c :: r) (i.mnemonic.length + 1) :=
    .applied htakes rfl hc
  have hfound : i.recognise none ((i.mnemonic ++ [' ']) ++ c :: r)
      = some ((), (i.mnemonic ++ [' ']).length) := by
    simpa using hoccurs.recognise_eq
  have hline : i.mnemonic ++ ' ' :: c :: r = (i.mnemonic ++ [' ']) ++ c :: r := by simp
  rw [encodeOne, replaceAll_eq_replaceFrom, hline, replaceFrom_found (by simp) hfound,
    List.singleton_append, behind_append, behind_cons, behind_nil]

/-- In front of operands, the mnemonic and the space behind it become the opcode. -/
theorem encodeOne_leading {c : Char} {r : Text} (hi : i.Regular) (htakes : i.takesOperands = true)
    (hc : isWordChar c = true) (hr : i.mnemonic ∉ words (c :: r)) :
    i.encodeOne (i.mnemonic ++ ' ' :: c :: r) = i.opcode :: c :: r := by
  have hsilent : Silent i.recognise (some ' ') (c :: r) [] := silent_of_not_mem_words hi rfl hr
  rw [encodeOne_applied htakes (by simp [startsOperands, hc]), replaceFrom_eq_self hsilent]

/-- A line that is a mnemonic becomes its opcode. -/
theorem encodeOne_mnemonic (hi : i.Regular) : i.encodeOne i.mnemonic = [i.opcode] := by
  cases htakes : i.takesOperands with
  | false => rw [encodeOne_bare hi htakes, hi.isWord.mapWords_eq, if_pos rfl]
  | true =>
    have hoccurs : i.Occurs none (i.mnemonic ++ []) i.mnemonic.length := .alone htakes (.inl rfl)
    have hall := replaceFrom_found (f := fun _ => [i.opcode]) hi.isWord.1 hoccurs.recognise_eq
    rwa [List.append_nil, replaceFrom_nil, List.append_nil] at hall

/-! ## All passes -/

/-- The passes for some instructions, one after the other. -/
def encodeEach (js : List Instruction) (line : Text) : Text :=
  js.foldl (fun line j => j.encodeOne line) line

theorem encodeEach_eq_self {js : List Instruction} {line : Text}
    (h : ∀ j ∈ js, j.encodeOne line = line) : encodeEach js line = line := by
  induction js with
  | nil => rfl
  | cons j js ih =>
    rw [encodeEach, List.foldl_cons, h j (List.mem_cons_self ..)]
    exact ih fun k hk => h k (List.mem_cons_of_mem j hk)

/-- The line behind the pass for an instruction. -/
def encodeThrough (i : Instruction) (line : Text) : Text :=
  i.encodeOne (encodeEach (earlier i) line)

/-- Once `i` is encoded, only the later instructions are left. -/
theorem encode_eq_later (hi : i ∈ table) (line : Text) :
    encode line = encodeEach (later i) (i.encodeThrough line) := by
  conv_lhs => rw [encode, table_eq hi]
  exact List.foldl_append ..

/-- If one instruction alone changes a line, the passes behind its own are left to be made. -/
theorem encode_eq_encodeEach {line : Text} (hi : i ∈ table)
    (hothers : ∀ j ∈ table, j ≠ i → j.encodeOne line = line) :
    encode line = encodeEach (later i) (i.encodeOne line) := by
  have hearlier : encodeEach (earlier i) line = line := by
    apply encodeEach_eq_self
    intro j hj
    obtain ⟨hmem, hne⟩ := mem_table_of_mem_earlier hj
    exact hothers j hmem hne
  rw [encode_eq_later hi, encodeThrough, hearlier]

/-- A mnemonic alone becomes its opcode. -/
theorem encode_mnemonic (hi : i ∈ table) : encode i.mnemonic = [i.opcode] := by
  have hregular := regular_of_mem hi
  have hothers : ∀ j ∈ table, j ≠ i → j.encodeOne i.mnemonic = i.mnemonic := by
    intro j hj hne
    apply encodeOne_eq_self (regular_of_mem hj)
    rw [hregular.isWord.words_eq, List.mem_singleton]
    exact fun h => hne (eq_of_mnemonic_eq hj hi h)
  rw [encode_eq_encodeEach hi hothers, encodeOne_mnemonic hregular]
  apply encodeEach_eq_self
  intro j hj
  have hlater := regular_of_mem (mem_table_of_mem_later hi hj).1
  apply encodeOne_eq_self hlater
  rw [hregular.isWord_opcode.words_eq, List.mem_singleton]
  intro h
  have hlong := hlater.long
  simp [h] at hlong

/-- A line with a mnemonic in front of operands, none of whose words is a mnemonic: the passes
behind that for the mnemonic are left to be made, with its opcode glued to the operands. -/
theorem encode_leading {c : Char} {r : Text} (hi : i ∈ table) (htakes : i.takesOperands = true)
    (hc : isWordChar c = true) (hr : ∀ j ∈ table, j.mnemonic ∉ words (c :: r)) :
    encode (i.mnemonic ++ ' ' :: c :: r) = encodeEach (later i) (i.opcode :: c :: r) := by
  have hregular := regular_of_mem hi
  have hothers : ∀ j ∈ table, j ≠ i →
      j.encodeOne (i.mnemonic ++ ' ' :: c :: r) = i.mnemonic ++ ' ' :: c :: r := by
    intro j hj hne
    apply encodeOne_eq_self (regular_of_mem hj)
    rw [words_append_break (by decide), hregular.isWord.words_eq, List.singleton_append,
      List.mem_cons, not_or]
    exact ⟨fun h => hne (eq_of_mnemonic_eq hj hi h), hr j hj⟩
  rw [encode_eq_encodeEach hi hothers, encodeOne_leading hregular htakes hc (hr i hi)]

/-- In front of operands without mnemonics, a first word that no space follows stays, or turns into
the opcode of an instruction without operands. -/
theorem encodeEach_first_word {js : List Instruction} (hjs : ∀ j ∈ js, j ∈ table) {w r : Text}
    (hw : IsWord w) (hspace : ' ' ∉ r) (hr : ∀ j ∈ table, j.mnemonic ∉ words r) :
    ∃ w', IsWord w' ∧ encodeEach js (w ++ ',' :: r) = w' ++ ',' :: r
      ∧ (w' = w ∨ ∃ j ∈ table, j.takesOperands = false ∧ w' = [j.opcode]) := by
  -- on the passes still to be made, for whatever word the earlier ones have left
  induction js generalizing w with
  | nil => exact ⟨w, hw, rfl, .inl rfl⟩
  | cons j js ih =>
    have hj := hjs j (List.mem_cons_self ..)
    have hregular := regular_of_mem hj
    have hjs' : ∀ k ∈ js, k ∈ table := fun k hk => hjs k (List.mem_cons_of_mem j hk)
    rw [encodeEach, List.foldl_cons]
    cases htakes : j.takesOperands with
    | true =>
      have hcomma : ',' ∉ j.mnemonic := fun h => by cases hregular.isWord.2 ',' h
      -- without a space in the line this pass finds nothing
      have hstay : j.encodeOne (w ++ ',' :: r) = w ++ ',' :: r := by
        apply encodeOne_of_no_space htakes
        · intro h
          rcases List.mem_append.1 h with h | h
          · cases hw.2 ' ' h
          · exact hspace (by simpa using h)
        · intro h
          exact hcomma (h ▸ by simp)
        · intro h
          have hmem : ',' ∈ j.mnemonic ++ ['\n'] := h ▸ by simp
          exact hcomma (by simpa using hmem)
      rw [hstay]
      exact ih hjs' hw
    | false =>
      have hkeep : mapWords (fun v => if v = j.mnemonic then [j.opcode] else v) r = r := by
        apply mapWords_eq_self
        intro v hv
        rw [if_neg]
        rintro rfl
        exact hr j hj hv
      rw [encodeOne_bare hregular htakes, mapWords_append_break (by decide), hw.mapWords_eq, hkeep]
      by_cases hname : w = j.mnemonic
      · rw [if_pos hname]
        obtain ⟨w', hw', hencode, hcases⟩ := ih hjs' hregular.isWord_opcode
        refine ⟨w', hw', hencode, .inr ?_⟩
        rcases hcases with rfl | hbare
        · exact ⟨j, hj, htakes, rfl⟩
        · exact hbare
      · rw [if_neg hname]
        exact ih hjs' hw

end ContractAsm.Instruction
