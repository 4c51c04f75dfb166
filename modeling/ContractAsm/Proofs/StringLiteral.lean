-- SUMMARY: Strings in a statement, and what an instruction inside of one does to them.
import ContractAsm.Proofs.Instruction
import ContractAsm.Proofs.Listing
import Mathlib.Data.Bool.AllAny

/-!
# Instructions inside of strings

Instructions are encoded before strings are, so a string that holds an instruction loses it: the
opcode is a single character, and the digits of the string become fewer. A string that holds none
reaches the object code as it is written.
-/

namespace ContractAsm

open Text

namespace Instruction

/-! ## Instructions held in a text -/

/-- What follows the mnemonic of an instruction where the instruction is encoded. -/
def Continues (i : Instruction) (rest : Text) : Prop :=
  if i.takesOperands then
    ∃ c cs, rest = ' ' :: c :: cs ∧ startsOperands c = true
  else rest.head?.any isWordChar = false

/-- A text holds an instruction if it has the mnemonic as a word of its own, followed by what the
instruction needs. -/
def HeldIn (i : Instruction) (t : Text) : Prop :=
  ∃ u v, t = u ++ (i.mnemonic ++ v) ∧ u.getLast?.any isWordChar = false ∧ i.Continues v

/-- The same at the very front of a text. -/
def HeldAt (i : Instruction) (before : Option Char) (t : Text) : Prop :=
  ∃ v, t = i.mnemonic ++ v ∧ before.any isWordChar = false ∧ i.Continues v

/-- The same from the front of a text on, with the character before it in view. -/
def HeldFrom (i : Instruction) (before : Option Char) (t : Text) : Prop :=
  ∃ u v, t = u ++ (i.mnemonic ++ v) ∧ (behind before u).any isWordChar = false ∧ i.Continues v

variable {i : Instruction} {before : Option Char} {t y : Text} {n : Nat}

theorem heldFrom_quote : i.HeldFrom (some '"') t ↔ i.HeldIn t := by
  have hfront : ∀ u : Text, (behind (some '"') u).any isWordChar = u.getLast?.any isWordChar := by
    intro u
    unfold behind
    cases u.getLast? with
    | none => rfl
    | some c => rfl
  simp only [HeldFrom, HeldIn, hfront]

theorem HeldAt.heldFrom (h : i.HeldAt before t) : i.HeldFrom before t := by
  obtain ⟨v, ht, hbefore, hcontinues⟩ := h
  exact ⟨[], v, ht, hbefore, hcontinues⟩

theorem heldFrom_cons_iff {c : Char} {cs : Text} (hfront : ¬i.HeldAt before (c :: cs)) :
    i.HeldFrom before (c :: cs) ↔ i.HeldFrom (some c) cs := by
  constructor
  · rintro ⟨u, v, hcs, hbefore, hcontinues⟩
    cases u with
    | nil => exact absurd ⟨v, hcs, hbefore, hcontinues⟩ hfront
    | cons d u =>
      obtain ⟨rfl, htail⟩ := List.cons.inj hcs
      exact ⟨u, v, htail, by simpa using hbefore, hcontinues⟩
  · rintro ⟨u, v, rfl, hbefore, hcontinues⟩
    exact ⟨c :: u, v, rfl, by simpa using hbefore, hcontinues⟩

theorem Continues.ends_word {v : Text} (h : i.Continues v) : v.head?.any isWordChar = false := by
  unfold Continues at h
  split at h
  · obtain ⟨c, cs, rfl, -⟩ := h
    rfl
  · exact h

theorem HeldIn.mem_words (hi : i.Regular) (h : i.HeldIn t) : i.mnemonic ∈ words t := by
  obtain ⟨u, v, rfl, hu, hv⟩ := h
  exact mem_words_between hi.isWord hu hv.ends_word

/-! ## Occurrences in front of a quote -/

theorem Regular.quote_not_mem (hi : i.Regular) : '"' ∉ i.mnemonic :=
  fun h => by cases hi.isWord.2 '"' h

theorem Occurs.heldAt (hi : i.Regular) (h : i.Occurs before (t ++ '"' :: y) n) :
    i.HeldAt before t ∧ n = i.keyword.length := by
  generalize htext : t ++ '"' :: y = text at h
  cases h with
  | bare htakes hbefore hrest =>
    obtain ⟨v, ht, hv⟩ := Literal.exists_append_of_quote hi.quote_not_mem htext
    refine ⟨⟨v, ht, hbefore, ?_⟩, by simp [keyword, htakes]⟩
    rw [Continues, htakes]
    cases v with
    | nil => rfl
    | cons c v => simpa [hv] using hrest
  | @applied _ c rest htakes hbefore hc =>
    obtain ⟨v, ht, hv⟩ := Literal.exists_append_of_quote hi.quote_not_mem htext
    refine ⟨⟨v, ht, hbefore, ?_⟩, by simp [keyword, htakes]⟩
    rw [Continues, if_pos htakes]
    -- the quote is neither the space nor the character that is needed behind it
    cases v with
    | nil => cases hv
    | cons d v =>
      obtain ⟨rfl, hnext⟩ := List.cons.inj hv
      cases v with
      | nil =>
        obtain ⟨rfl, -⟩ := List.cons.inj hnext
        cases hc
      | cons d v =>
        obtain ⟨rfl, -⟩ := List.cons.inj hnext
        exact ⟨c, v, rfl, hc⟩
  | alone htakes hrest =>
    -- the quote is behind the mnemonic, which is then not the whole text
    obtain ⟨v, -, hv⟩ := Literal.exists_append_of_quote hi.quote_not_mem htext
    rcases hrest with rfl | rfl
    · simp at hv
    · have hmem : '"' ∈ ['\n'] := by simp [hv]
      cases List.mem_singleton.1 hmem

theorem HeldAt.occurs (h : i.HeldAt before t) :
    i.Occurs before (t ++ '"' :: y) i.keyword.length := by
  obtain ⟨v, rfl, hbefore, hcontinues⟩ := h
  rw [List.append_assoc]
  cases htakes : i.takesOperands with
  | false =>
    rw [Continues, htakes] at hcontinues
    rw [keyword, htakes]
    refine .bare htakes hbefore ?_
    cases v with
    | nil => rfl
    | cons c v => simpa using hcontinues
  | true =>
    rw [Continues, if_pos htakes] at hcontinues
    obtain ⟨c, cs, rfl, hc⟩ := hcontinues
    rw [keyword, if_pos htakes, List.length_append]
    exact .applied htakes hbefore hc

/-- Up to a quote, an instruction occurs where it is held. -/
theorem recognise_quote_iff (hi : i.Regular) :
    i.recognise before (t ++ '"' :: y) = some ((), n)
      ↔ i.HeldAt before t ∧ n = i.keyword.length := by
  rw [recognise_eq_some_iff]
  constructor
  · exact fun h => h.heldAt hi
  · rintro ⟨h, rfl⟩
    exact h.occurs

theorem recognise_quote_eq_none (hi : i.Regular) (h : ¬i.HeldAt before t) :
    i.recognise before (t ++ '"' :: y) = none := by
  cases hrec : i.recognise before (t ++ '"' :: y) with
  | none => rfl
  | some found => exact absurd ((recognise_quote_iff hi).1 hrec).1 h

theorem HeldAt.exists_keyword (h : i.HeldAt before t) : ∃ rest, t = i.keyword ++ rest := by
  obtain ⟨v, rfl, -, hcontinues⟩ := h
  cases htakes : i.takesOperands with
  | false => exact ⟨v, by rw [keyword, htakes]; rfl⟩
  | true =>
    rw [Continues, if_pos htakes] at hcontinues
    obtain ⟨c, cs, rfl, -⟩ := hcontinues
    exact ⟨c :: cs, by simp [keyword, htakes]⟩

theorem length_mnemonic_le_keyword (i : Instruction) : i.mnemonic.length ≤ i.keyword.length := by
  unfold keyword
  split
  · simp
  · exact Nat.le_refl _

theorem Regular.keyword_ne_nil (hi : i.Regular) : i.keyword ≠ [] := by
  intro hnil
  have hlong := hi.long
  have hkeyword := length_mnemonic_le_keyword i
  rw [hnil, List.length_nil] at hkeyword
  omega

/-! ## Encoding up to a quote -/

/-- A text after the encoding of instructions, of which it held some or none: what was encoded is
now a letter, and the text has fewer digits. -/
structure Abridged [Platform] (held : Prop) (t t' : Text) : Prop where
  letters : ∀ c ∈ t', c ∈ t ∨ c.isAlpha = true
  nonempty : t ≠ [] → t' ≠ []
  same : ¬held → t' = t
  shorter : held → (Literal.stringDigits t').length < (Literal.stringDigits t).length

theorem Abridged.refl [Platform] {held : Prop} (hnot : ¬held) (t : Text) : Abridged held t t where
  letters := fun _ hc => .inl hc
  nonempty := fun hne => hne
  same := fun _ => rfl
  shorter := fun hheld => absurd hheld hnot

theorem Abridged.length_le [Platform] {held : Prop} {t t' : Text} (h : Abridged held t t') :
    (Literal.stringDigits t').length ≤ (Literal.stringDigits t).length := by
  by_cases hheld : held
  · exact Nat.le_of_lt (h.shorter hheld)
  · rw [h.same hheld]

theorem Abridged.not_mem [Platform] {held : Prop} {t t' : Text} (h : Abridged held t t') {c : Char}
    (hc : c.isAlpha = false) (ht : c ∉ t) : c ∉ t' := by
  intro hmem
  rcases h.letters c hmem with hmem | hletter
  · exact ht hmem
  · rw [hc] at hletter
    cases hletter

theorem Abridged.trans [Platform] {j : Instruction} {js : List Instruction} {t t₁ t₂ : Text}
    (h₁ : Abridged (j.HeldIn t) t t₁) (h₂ : Abridged (∃ k ∈ js, k.HeldIn t₁) t₁ t₂) :
    Abridged (∃ k ∈ j :: js, k.HeldIn t) t t₂ where
  letters := by
    intro c hc
    rcases h₂.letters c hc with hc | hletter
    · exact h₁.letters c hc
    · exact .inr hletter
  nonempty := fun hne => h₂.nonempty (h₁.nonempty hne)
  same := by
    intro hnone
    have hkeep : t₁ = t := h₁.same fun h => hnone ⟨j, List.mem_cons_self .., h⟩
    subst hkeep
    exact h₂.same fun ⟨k, hk, h⟩ => hnone ⟨k, List.mem_cons_of_mem j hk, h⟩
  shorter := by
    rintro ⟨k, hk, hheld⟩
    -- the first pass shortens the string, or leaves it to the later ones as it was
    by_cases hj : j.HeldIn t
    · exact Nat.lt_of_le_of_lt h₂.length_le (h₁.shorter hj)
    · have hkeep : t₁ = t := h₁.same hj
      subst hkeep
      rcases List.mem_cons.1 hk with rfl | hk
      · exact absurd hheld hj
      · exact h₂.shorter ⟨k, hk, hheld⟩

/-- The opcode has two digits, and every mnemonic at least four. -/
theorem abridged_keyword [Platform] (hi : i.Regular) {held : Prop} {rest rest' : Text}
    (h : Abridged held rest rest') (now : Prop) (hnow : now) :
    Abridged now (i.keyword ++ rest) (i.opcode :: rest') where
  letters := by
    intro c hc
    rcases List.mem_cons.1 hc with rfl | hc
    · exact .inr hi.letter
    · rcases h.letters c hc with hc | hletter
      · exact .inl (List.mem_append_right _ hc)
      · exact .inr hletter
  nonempty := fun _ => List.cons_ne_nil _ _
  same := fun hnot => absurd hnow hnot
  shorter := by
    intro _
    -- two digits for the opcode against two or more for each character of the keyword
    have hopcode : (Literal.stringDigits [i.opcode]).length = 2 := by
      apply Literal.length_stringDigits_singleton
      have hletter := isAlpha_iff.1 hi.letter
      omega
    have hkeyword := Literal.two_mul_length_le i.keyword
    have hlong := hi.long
    have hmnemonic := length_mnemonic_le_keyword i
    have hrest := h.length_le
    rw [Literal.length_stringDigits_cons, Literal.stringDigits_append, List.length_append]
    omega

theorem abridged_cons [Platform] {held held' : Prop} {c : Char} {cs cs' : Text}
    (hheld : held' ↔ held)
    (h : Abridged held cs cs') : Abridged held' (c :: cs) (c :: cs') where
  letters := by
    intro d hd
    rcases List.mem_cons.1 hd with rfl | hd
    · exact .inl (List.mem_cons_self ..)
    · rcases h.letters d hd with hd | hletter
      · exact .inl (List.mem_cons_of_mem c hd)
      · exact .inr hletter
  nonempty := fun _ => List.cons_ne_nil _ _
  same := fun hnot => by rw [h.same fun hh => hnot (hheld.2 hh)]
  shorter := by
    intro hh
    have hshorter := h.shorter (hheld.1 hh)
    rw [Literal.length_stringDigits_cons, Literal.length_stringDigits_cons c cs]
    omega

/-- One pass over a text up to a quote. What comes behind the quote does not matter for it. -/
theorem replaceFrom_quote [Platform] (before : Option Char) (hi : i.Regular) (hquote : '"' ∉ t) :
    ∃ t', (∀ y, replaceFrom i.recognise (fun _ => [i.opcode]) before (t ++ '"' :: y)
        = t' ++ '"' :: replaceFrom i.recognise (fun _ => [i.opcode]) (some '"') y)
      ∧ Abridged (i.HeldFrom before t) t t' := by
  -- on the length of the text, since an occurrence takes more than one character of it
  induction hlength : t.length using Nat.strongRecOn generalizing t before with
  | _ length ih =>
    by_cases hfront : i.HeldAt before t
    · -- the keyword becomes the opcode, and the pass goes on behind it
      obtain ⟨rest, rfl⟩ := hfront.exists_keyword
      have hshort : rest.length < length := by
        have hpositive := List.length_pos_iff.2 hi.keyword_ne_nil
        rw [List.length_append] at hlength
        omega
      obtain ⟨rest', hpass, habridged⟩ := ih rest.length hshort (behind before i.keyword)
        (fun h => hquote (List.mem_append_right _ h)) rfl
      refine ⟨i.opcode :: rest', ?_, abridged_keyword hi habridged _ hfront.heldFrom⟩
      intro y
      have hfound : i.recognise before (i.keyword ++ (rest ++ '"' :: y))
          = some ((), i.keyword.length) := by
        rw [← List.append_assoc, recognise_quote_iff hi]
        exact ⟨hfront, rfl⟩
      rw [List.append_assoc, replaceFrom_found hi.keyword_ne_nil hfound, hpass y]
      rfl
    · have hnone : ∀ y, i.recognise before (t ++ '"' :: y) = none :=
        fun y => recognise_quote_eq_none hi hfront
      cases t with
      | nil =>
        refine ⟨[], ?_, ?_⟩
        · intro y
          exact replaceFrom_cons (hnone y)
        · apply Abridged.refl
          rintro ⟨u, v, hnil, -, -⟩
          have hempty := (List.append_eq_nil_iff.1 hnil.symm).2
          exact absurd (List.append_eq_nil_iff.1 hempty).1 hi.isWord.1
      | cons c cs =>
        -- one character is copied, and stands in front of what is left
        rw [List.length_cons] at hlength
        obtain ⟨cs', hpass, habridged⟩ := ih cs.length (by omega) (some c)
          (fun h => hquote (List.mem_cons_of_mem c h)) rfl
        refine ⟨c :: cs', ?_, abridged_cons (heldFrom_cons_iff hfront) habridged⟩
        intro y
        have hstep := hnone y
        rw [List.cons_append] at hstep
        rw [List.cons_append, replaceFrom_cons hstep, hpass y, List.cons_append]

theorem recognise_of_break (hi : i.Regular) {c : Char} {cs : Text} (hc : isWordChar c = false) :
    i.recognise before (c :: cs) = none := by
  cases hrec : i.recognise before (c :: cs) with
  | none => rfl
  | some found =>
    obtain ⟨rest, hrest, -, -⟩ := (occurs_of_recognise hrec).word
    obtain ⟨d, ds, hmnemonic⟩ := List.exists_cons_of_ne_nil hi.isWord.1
    rw [hmnemonic, List.cons_append] at hrest
    obtain ⟨rfl, -⟩ := List.cons.inj hrest
    have hword : isWordChar c = true := hi.isWord.2 c (by simp [hmnemonic])
    rw [hc] at hword
    cases hword

/-- One pass over a string and the text around it, which does not hold the mnemonic. -/
theorem replaceFrom_quoted [Platform] (before : Option Char) (hi : i.Regular) {x : Text}
    (hx : i.mnemonic ∉ words x) (hy : i.mnemonic ∉ words y) (hquote : '"' ∉ t) :
    ∃ t', replaceFrom i.recognise (fun _ => [i.opcode]) before (x ++ '"' :: (t ++ '"' :: y))
        = x ++ '"' :: (t' ++ '"' :: y)
      ∧ Abridged (i.HeldIn t) t t' := by
  obtain ⟨t', hpass, habridged⟩ := replaceFrom_quote (some '"') hi hquote
  rw [heldFrom_quote] at habridged
  refine ⟨t', ?_, habridged⟩
  rw [replaceFrom_silent (silent_of_not_mem_words hi rfl hx),
    replaceFrom_cons (recognise_of_break hi rfl), hpass,
    replaceFrom_eq_self (silent_of_not_mem_words hi rfl hy)]

/-- Some passes, one after the other. -/
theorem encodeEach_quoted [Platform] {js : List Instruction} (hjs : ∀ j ∈ js, j ∈ table) {x : Text}
    (hx : ∀ j ∈ table, j.mnemonic ∉ words x) (hy : ∀ j ∈ table, j.mnemonic ∉ words y)
    (hquote : '"' ∉ t) :
    ∃ t', encodeEach js (x ++ '"' :: (t ++ '"' :: y)) = x ++ '"' :: (t' ++ '"' :: y)
      ∧ Abridged (∃ j ∈ js, j.HeldIn t) t t' := by
  -- what one pass leaves of the string holds no quote either, so the next one can be made
  induction js generalizing t with
  | nil => exact ⟨t, rfl, .refl (by simp) t⟩
  | cons j js ih =>
    have hj := hjs j (List.mem_cons_self ..)
    obtain ⟨t₁, hpass, h₁⟩ := replaceFrom_quoted none (regular_of_mem hj) (hx j hj)
      (hy j hj) hquote
    obtain ⟨t₂, hpasses, h₂⟩ := ih (fun k hk => hjs k (List.mem_cons_of_mem j hk))
      (h₁.not_mem rfl hquote)
    refine ⟨t₂, ?_, h₁.trans h₂⟩
    rw [encodeEach, List.foldl_cons, encodeOne, replaceAll_eq_replaceFrom, hpass]
    exact hpasses

/-- The statement that evaluates a string. -/
def stringStatement (t : Text) : Text :=
  "EVAL8 gi0,".toList ++ '"' :: (t ++ '"' :: [','])

theorem encode_stringStatement [Platform] (hquote : '"' ∉ t) :
    ∃ t', encode (stringStatement t) = "Agi0,".toList ++ '"' :: (t' ++ '"' :: [','])
      ∧ Abridged (∃ i ∈ table, i.HeldIn t) t t' := by
  -- the leading instruction is the first of the table, so its pass comes first
  obtain ⟨js, htable⟩ : ∃ js, table = operator "EVAL8" 'A' :: js := ⟨_, rfl⟩
  have hfirst : (operator "EVAL8" 'A').Regular := regular_of_mem (by simp [htable])
  obtain ⟨t₁, hpass, h₁⟩ := replaceFrom_quoted (some ' ') (x := "gi0,".toList)
    (y := [',']) hfirst (by decide) (by decide) hquote
  have hoccurs : (operator "EVAL8" 'A').Occurs none (stringStatement t) 6 :=
    .applied (c := 'g') rfl rfl (by decide)
  have hencode : (operator "EVAL8" 'A').encodeOne (stringStatement t)
      = "Agi0,".toList ++ '"' :: (t₁ ++ '"' :: [',']) := by
    have hfound := replaceFrom_found (f := fun _ => ['A']) (x := "EVAL8 ".toList) (by decide)
      hoccurs.recognise_eq
    exact hfound.trans (congrArg ('A' :: ·) hpass)
  have hjs : ∀ j ∈ js, j ∈ table := fun j hj => by simp [htable, hj]
  obtain ⟨t₂, hpasses, h₂⟩ := encodeEach_quoted (x := "Agi0,".toList) (y := [',']) hjs (by decide)
    (by decide) (h₁.not_mem rfl hquote)
  refine ⟨t₂, ?_, ?_⟩
  · rw [encode, htable, List.foldl_cons, hencode]
    exact hpasses
  · rw [htable]
    exact h₁.trans h₂

end Instruction

open Instruction

/-! ## A statement with a string -/

variable {t : Text}

/-- What the encoding of instructions leaves of the string is what the object code has. -/
theorem encodeStatement_stringStatement [Platform] (index : Int) (line : Nat) (hne : t ≠ [])
    (hcomma : ',' ∉ t) (hquote : '"' ∉ t) :
    ∃ t', ObjectCode.encodeStatement .empty ⟨stringStatement t, index, line⟩
        = .ok ("Agi0,".toList ++ (Literal.encodeString t' ++ [',']))
      ∧ Abridged (∃ i ∈ table, i.HeldIn t) t t' := by
  obtain ⟨t', hencode, habridged⟩ := encode_stringStatement hquote
  refine ⟨t', ?_, habridged⟩
  have hstrings : Literal.encodeStrings ("Agi0,".toList ++ '"' :: (t' ++ '"' :: [',']))
      = "Agi0,".toList ++ (Literal.encodeString t' ++ [',']) :=
    Literal.encodeStrings_one (by decide) (by decide) (habridged.nonempty hne)
      (habridged.not_mem rfl hcomma) (habridged.not_mem rfl hquote)
  have hpoint : '.' ∉ "Agi0,".toList ++ (Literal.encodeString t' ++ [',']) := by
    have hdigits : '.' ∉ Literal.stringDigits t' := by
      intro h
      cases Literal.isAlphanum_of_mem_stringDigits h
    simp [Literal.encodeString, hdigits]
  simp only [ObjectCode.encodeStatement, hencode, hstrings]
  exact ObjectCode.resolveAddresses_eq_self hpoint

theorem not_mem_stringStatement {c : Char} (hc : c ∈ [';', '\\', '\n']) (hmem : c ∉ t) :
    c ∉ stringStatement t := by
  have hfixed : ∀ c ∈ [';', '\\', '\n'], c ∉ "EVAL8 gi0,".toList ∧ c ≠ '"' ∧ c ≠ ',' :=
    List.all_iff_forall_prop.1 (by decide)
  obtain ⟨hfront, hquote, hcomma⟩ := hfixed c hc
  unfold stringStatement
  rw [List.mem_append, not_or, List.mem_cons, not_or, List.mem_append, not_or]
  exact ⟨hfront, hquote, hmem, by simp [hquote, hcomma]⟩

theorem trim_stringStatement (t : Text) : trim (stringStatement t) = stringStatement t := by
  have hhead : (stringStatement t).head? = some 'E' := rfl
  have hlast : ∀ x : Text, (x ++ '"' :: (t ++ '"' :: [','])).getLast? = some ',' := by
    intro x
    have hconcat : x ++ '"' :: (t ++ '"' :: [',']) = (x ++ '"' :: (t ++ ['"'])) ++ [','] := by simp
    rw [hconcat, List.getLast?_concat]
  apply trim_eq_self
  · rw [hhead]
    decide
  · unfold stringStatement
    rw [hlast "EVAL8 gi0,".toList]
    decide

theorem listing_stringStatement [Platform] (filename : String)
    (ht : ∀ c ∈ ['"', ';', '\\', '\n'], c ∉ t) :
    (Listing.ofSource filename (stringStatement t)).result
      = .ok ⟨[⟨stringStatement t, 0, 1⟩], .empty, []⟩ := by
  have houtside : ∀ c ∈ [';', '\\', '\n'], c ∉ stringStatement t :=
    fun c hc => not_mem_stringStatement hc (ht c (List.mem_cons_of_mem _ hc))
  have hlines : lines (stringStatement t) = [stringStatement t] :=
    List.splitOn_eq_singleton (houtside '\n' (by simp))
  have hplain : Listing.Plain (stringStatement t) :=
    { nonempty := List.cons_ne_nil _ _
      noComment := houtside ';' (by simp)
      noCall := Literal.NoCall.quoted (by decide) (ht '"' (by simp)) (by decide) (by decide)
      noReference := houtside '\\' (by simp) }
  have hadd : Listing.Progress.start.addStatement 1 (stringStatement t)
      = pure ⟨.empty, .empty, #[⟨stringStatement t, 0, 1⟩]⟩ :=
    Listing.addStatement_of_ne (c := 'E') (by decide)
  apply Listing.ofSource_of_addLines (p := ⟨.empty, .empty, #[⟨stringStatement t, 0, 1⟩]⟩)
  · have hcheck := Listing.checkLine_of_hashed_eq_nil
      (Listing.hashed_plain (trim_stringStatement t) hplain)
    rw [hlines, Listing.addLines_cons hcheck, Listing.addLine_plain (trim_stringStatement t) hplain,
      hadd]
    rfl
  · rfl

/-- A string of any characters reaches the object code as ASCII. -/
theorem isHalf_of_mem_stringCode [Platform] {t' : Text} {c : Char}
    (hc : c ∈ "Agi0,".toList ++ (Literal.encodeString t' ++ [','])) : isHalf c = false := by
  have hsmall : ("Agi0,".toList.all fun c => c.toNat < 0x80) = true := by decide
  rw [Literal.encodeString, List.mem_append, List.mem_append, List.mem_cons,
    List.mem_singleton] at hc
  rcases hc with hc | (rfl | hc) | rfl
  · have hlt : c.toNat < 0x80 := by simpa using List.all_eq_true.1 hsmall c hc
    exact isHalf_eq_false (hlt.trans (by decide))
  · exact isHalf_eq_false (by decide)
  · have hdigit := Literal.isAlphanum_of_mem_stringDigits hc
    exact isHalf_of_isWordChar (by simp [isWordChar, hdigit])
  · exact isHalf_eq_false (by decide)

theorem assemble_stringStatement [Platform] (verbose : Bool) (filename : String) (hne : t ≠ [])
    (ht : ∀ c ∈ [',', '"', ';', '\\', '\n'], c ∉ t) :
    ∃ a t', (assemble verbose filename (stringStatement t)).2 = .assembled a
      ∧ a.objectCode = "Agi0,".toList ++ (Literal.encodeString t' ++ [','])
      ∧ Abridged (∃ i ∈ table, i.HeldIn t) t t' := by
  obtain ⟨t', hcode, habridged⟩ := encodeStatement_stringStatement 0 1 hne (ht ',' (by simp))
    (ht '"' (by simp))
  have hlisting := listing_stringStatement filename
    fun c hc => ht c (List.mem_cons_of_mem _ hc)
  have htext : trim (stringStatement t) ≠ [] := by
    rw [trim_stringStatement]
    exact List.cons_ne_nil _ _
  have hcharacters : ∀ line ∈ ["Agi0,".toList ++ (Literal.encodeString t' ++ [','])],
      ∀ c ∈ line, isHalf c = false :=
    fun line hline c hc => isHalf_of_mem_stringCode (List.mem_singleton.1 hline ▸ hc)
  obtain ⟨a, hassembled, hobject⟩ := assemble_of_listing verbose hlisting
    (ObjectCode.encodeStatements_eq_ok (.cons ⟨htext, hcode⟩ .nil))
    (any_isHalf_trim_ofLines hcharacters)
  refine ⟨a, t', hassembled, ?_, habridged⟩
  -- the line starts with the opcode and ends with a comma, so there is nothing to trim
  have hlast : ∀ x y : Text, (x ++ (y ++ [','])).getLast? = some ',' := by
    intro x y
    rw [← List.append_assoc, List.getLast?_concat]
  have hhead : ("Agi0,".toList ++ (Literal.encodeString t' ++ [','])).head? = some 'A' := rfl
  rw [hobject, ofLines_singleton]
  apply trim_eq_self
  · rw [hhead]
    decide
  · rw [hlast "Agi0,".toList]
    decide

/-- A string without commas, quotes, semicolons, backslashes and line feeds reaches the object code
as it is written just if it holds no instruction. -/
theorem assemble_stringStatement_iff [Platform] (verbose : Bool) (filename : String) (hne : t ≠ [])
    (ht : ∀ c ∈ [',', '"', ';', '\\', '\n'], c ∉ t) :
    ∃ a, (assemble verbose filename (stringStatement t)).2 = .assembled a
      ∧ (a.objectCode = "Agi0,".toList ++ (Literal.encodeString t ++ [','])
        ↔ ∀ i ∈ table, ¬i.HeldIn t) := by
  obtain ⟨a, t', hassembled, hcode, habridged⟩ :=
    assemble_stringStatement verbose filename hne ht
  refine ⟨a, hassembled, ?_⟩
  rw [hcode]
  constructor
  · -- a string that lost an instruction has fewer digits
    intro hsame i hi hheld
    have hshorter := habridged.shorter ⟨i, hi, hheld⟩
    have hdigits : Literal.stringDigits t' = Literal.stringDigits t := by
      simpa [Literal.encodeString] using hsame
    rw [hdigits] at hshorter
    exact absurd hshorter (Nat.lt_irrefl _)
  · intro hnone
    rw [habridged.same fun ⟨i, hi, hheld⟩ => hnone i hi hheld]

theorem assemble_stringStatement_iff_stopped :
    ∃ a, (assemble false "main.asm" (stringStatement "STOPPED".toList)).2 = .assembled a
      ∧ a.objectCode = "Agi0,x53544f50504544,".toList := by
  have hwords : ∀ i ∈ table, i.mnemonic ∉ words "STOPPED".toList := by decide
  have hchars : ∀ c ∈ [',', '"', ';', '\\', '\n'], c ∉ "STOPPED".toList :=
    List.all_iff_forall_prop.1 (by decide)
  obtain ⟨a, hassembled, hcode⟩ := assemble_stringStatement_iff false "main.asm" (by decide) hchars
  refine ⟨a, hassembled, hcode.2 ?_⟩
  intro i hi hheld
  exact hwords i hi (hheld.mem_words (regular_of_mem hi))

/-- A string that is a mnemonic reaches the object code as the opcode. -/
theorem assemble_stringStatement_stop :
    ∃ a, (assemble false "main.asm" (stringStatement "STOP".toList)).2 = .assembled a
      ∧ a.objectCode = "Agi0,x7a,".toList
      ∧ a.objectCode ≠ "Agi0,".toList ++ (Literal.encodeString "STOP".toList ++ [',']) := by
  have hchars : ∀ c ∈ ['"', ';', '\\', '\n'], c ∉ "STOP".toList :=
    List.all_iff_forall_prop.1 (by decide)
  have hlisting := listing_stringStatement "main.asm" hchars
  have hcodes : ObjectCode.encodeStatements .empty [⟨stringStatement "STOP".toList, 0, 1⟩]
      = .ok ["Agi0,x7a,".toList] := by
    decide +kernel
  obtain ⟨a, hassembled, hcode⟩ := assemble_of_listing false hlisting hcodes (by decide +kernel)
  have hline : a.objectCode = "Agi0,x7a,".toList := hcode.trans (by decide)
  refine ⟨a, hassembled, hline, ?_⟩
  rw [hline]
  decide

end ContractAsm
