-- SUMMARY: When an opcode and its first operand are copied by the later passes.
import ContractAsm.Proofs.LeadingMnemonic

/-!
# Operands glued to an opcode

An opcode is put right in front of the operands, where a later pass takes it for a part of their
first word. If the two make up a mnemonic, that word is lost, and another opcode is glued to what
comes next. So the operands behind a mnemonic are not always copied, but what is left of them is,
and all of them are if their first character is no capital letter.
-/

namespace ContractAsm.Instruction

open Text

/-- No word of a text is a mnemonic. -/
def MnemonicFree (t : Text) : Prop :=
  ∀ j ∈ table, j.mnemonic ∉ words t

instance (t : Text) : Decidable (MnemonicFree t) :=
  inferInstanceAs (Decidable (∀ j ∈ table, j.mnemonic ∉ words t))

/-- An instruction in front of a line: its mnemonic is the first word, and what follows is what an
instruction of its kind needs. -/
def Leads (j : Instruction) (line : Text) : Prop :=
  ∃ rest, line = j.mnemonic ++ rest ∧ rest.head?.any isWordChar = false
    ∧ (j.takesOperands = true → Admits rest)

variable {i j : Instruction} {c : Char} {r t w y : Text}

theorem MnemonicFree.of_append (hy : y.head?.any isWordChar = false) (h : MnemonicFree (w ++ y)) :
    MnemonicFree y := by
  cases y with
  | nil => simp [MnemonicFree]
  | cons b y =>
    have hb : isWordChar b = false := by simpa using hy
    intro j hj hmem
    refine h j hj ?_
    rw [words_append_break hb]
    rw [words_cons_break hb] at hmem
    exact List.mem_append_right _ hmem

theorem MnemonicFree.tail (hc : isWordChar c = false) (h : MnemonicFree (c :: t)) :
    MnemonicFree t := by
  intro j hj hmem
  refine h j hj ?_
  rwa [words_cons_break hc]

/-! ## One pass -/

theorem leads_append_iff (hj : j.Regular) (hw : IsWord w) (hy : y.head?.any isWordChar = false) :
    j.Leads (w ++ y) ↔ w = j.mnemonic ∧ (j.takesOperands = true → Admits y) := by
  constructor
  · rintro ⟨rest, hline, hrest, hadmits⟩
    obtain rfl := row_unique hw.2 hj.isWord.2 hy hrest hline
    rw [List.append_cancel_left hline]
    exact ⟨rfl, hadmits⟩
  · rintro ⟨rfl, hadmits⟩
    exact ⟨y, rfl, hy, hadmits⟩

/-- A pass finds its instruction at the front of a line just if it is there. -/
theorem recognise_eq_none_iff (hj : j.Regular) (hc : isWordChar c = true) :
    j.recognise none (c :: t) = none ↔ ¬j.Leads (c :: t) := by
  obtain ⟨w, y, hsplit, hw, hy⟩ := exists_first_word hc t
  rw [hsplit, recognise_word_eq_none_iff hw hj hy, leads_append_iff hj hw hy]

/-- Where its instruction is not in front, a pass copies the line. -/
theorem encodeOne_of_not_leads (hj : j ∈ table) (hc : isWordChar c = true) (hr : MnemonicFree r)
    (h : ¬j.Leads (c :: r)) : j.encodeOne (c :: r) = c :: r := by
  have hregular := regular_of_mem hj
  have hnone := (recognise_eq_none_iff hregular hc).2 h
  obtain ⟨w, y, hsplit, hw, hy⟩ := exists_first_word hc r
  rw [hsplit] at hnone ⊢
  have hrest : MnemonicFree y := by
    obtain ⟨-, rfl⟩ := List.cons.inj hsplit
    exact hr.of_append hy
  rw [encodeOne_word hw hnone,
    replaceFrom_eq_self (silent_of_not_mem_words hregular rfl (hrest j hj))]

theorem encodeOne_found {x s : Text} (hj : j ∈ table) (hx : x ≠ []) (hs : MnemonicFree s)
    (hfound : j.Occurs none (x ++ s) x.length) : j.encodeOne (x ++ s) = j.opcode :: s := by
  have hsilent : Silent j.recognise (behind none x) s [] :=
    silent_of_not_mem_words (regular_of_mem hj) rfl (hs j hj)
  rw [encodeOne, replaceAll_eq_replaceFrom, replaceFrom_found hx hfound.recognise_eq,
    replaceFrom_eq_self hsilent, List.singleton_append]

/-- Where its instruction is in front, a pass glues its opcode to an end of the line. -/
theorem encodeOne_of_leads (hj : j ∈ table) (hr : MnemonicFree r) (h : j.Leads (c :: r)) :
    ∃ s, s <:+ r ∧ MnemonicFree s ∧ j.encodeOne (c :: r) = j.opcode :: s := by
  obtain ⟨rest, hline, hbreak, hadmits⟩ := h
  obtain ⟨a, b, cs, hmnemonic, -, -⟩ := exists_mnemonic_cons hj
  have hne : j.mnemonic ≠ [] := by simp [hmnemonic]
  obtain ⟨rfl, rfl⟩ : c = a ∧ r = b :: cs ++ rest := by simpa [hmnemonic] using hline
  have hrest : MnemonicFree rest := hr.of_append hbreak
  rw [hline]
  cases htakes : j.takesOperands with
  | false =>
    exact ⟨rest, List.suffix_append .., hrest,
      encodeOne_found hj hne hrest (.bare htakes rfl hbreak)⟩
  | true =>
    rcases hadmits htakes with hnil | hnewline | ⟨d, ds, rfl, hd⟩
    · exact ⟨rest, List.suffix_append .., hrest,
        encodeOne_found hj hne hrest (.alone htakes (.inl hnil))⟩
    · exact ⟨rest, List.suffix_append .., hrest,
        encodeOne_found hj hne hrest (.alone htakes (.inr hnewline))⟩
    · -- the space behind the mnemonic is taken with it
      have hoperands : MnemonicFree (d :: ds) := hrest.tail rfl
      have hfound : j.Occurs none (j.mnemonic ++ ' ' :: d :: ds) (j.mnemonic.length + 1) :=
        .applied htakes rfl hd
      have hencode : j.encodeOne ((j.mnemonic ++ [' ']) ++ d :: ds) = j.opcode :: d :: ds :=
        encodeOne_found hj (by simp) hoperands (by simpa using hfound)
      refine ⟨d :: ds, ⟨b :: cs ++ [' '], by simp⟩, hoperands, ?_⟩
      simpa using hencode

/-! ## All passes -/

/-- Passes copy a line with an opcode in front, or the instruction of one of them is there. In that
case the line they leave is another opcode and an end of the operands. -/
theorem encodeEach_glued {js : List Instruction} (hjs : ∀ j ∈ js, j ∈ table)
    (hc : isWordChar c = true) (hr : MnemonicFree r) :
    ((∀ j ∈ js, ¬j.Leads (c :: r)) ∧ encodeEach js (c :: r) = c :: r)
      ∨ (∃ j ∈ js, j.Leads (c :: r))
        ∧ ∃ k ∈ js, ∃ s, s <:+ r ∧ encodeEach js (c :: r) = k.opcode :: s := by
  -- on the passes still to be made, for whatever opcode and operands the earlier ones have left
  induction js generalizing c r with
  | nil => exact .inl ⟨by simp, rfl⟩
  | cons j js ih =>
    have hj := hjs j (List.mem_cons_self ..)
    have hjs' : ∀ k ∈ js, k ∈ table := fun k hk => hjs k (List.mem_cons_of_mem j hk)
    have hcons : encodeEach (j :: js) (c :: r) = encodeEach js (j.encodeOne (c :: r)) := rfl
    by_cases hleads : j.Leads (c :: r)
    · obtain ⟨s, hsuffix, hs, hone⟩ := encodeOne_of_leads hj hr hleads
      refine .inr ⟨⟨j, List.mem_cons_self .., hleads⟩, ?_⟩
      rw [hcons, hone]
      rcases ih hjs' (isWordChar_of_isAlpha (regular_of_mem hj).letter) hs with
        ⟨-, hstay⟩ | ⟨-, k, hk, s', hsuffix', hencode⟩
      · exact ⟨j, List.mem_cons_self .., s, hsuffix, hstay⟩
      · exact ⟨k, List.mem_cons_of_mem j hk, s', hsuffix'.trans hsuffix, hencode⟩
    · rw [hcons, encodeOne_of_not_leads hj hc hr hleads]
      rcases ih hjs' hc hr with ⟨hnone, hstay⟩ | ⟨⟨l, hl, hlead⟩, k, hk, hencode⟩
      · exact .inl ⟨List.forall_mem_cons.2 ⟨hleads, hnone⟩, hstay⟩
      · exact .inr ⟨⟨l, List.mem_cons_of_mem j hl, hlead⟩, k, List.mem_cons_of_mem j hk, hencode⟩

/-- Operands without mnemonics are copied behind the opcode just if that is not the start of a
mnemonic with a later pass. Whether it is or not, what the passes leave is one opcode and an end of
the operands. Operands that start with no capital letter are always copied. -/
theorem encode_applyTo_copied_iff (i : Instruction) (hi : i ∈ table)
    (htakes : i.takesOperands = true) (c : Char) (r : Text) (hc : isWordChar c = true)
    (hr : MnemonicFree (c :: r)) :
    (encode (i.applyTo (c :: r)) = i.opcode :: c :: r
        ↔ ∀ j ∈ later i, ¬j.Leads (i.opcode :: c :: r))
    ∧ (∃ k ∈ i :: later i, ∃ s, s <:+ c :: r ∧ encode (i.applyTo (c :: r)) = k.opcode :: s)
    ∧ (c.isUpper = false → encode (i.applyTo (c :: r)) = i.opcode :: c :: r) := by
  have hlater : ∀ j ∈ later i, j ∈ table := fun j hj => (mem_table_of_mem_later hi hj).1
  have hopcode := isWordChar_of_isAlpha (regular_of_mem hi).letter
  have hencode : encode (i.applyTo (c :: r)) = encodeEach (later i) (i.opcode :: c :: r) :=
    encode_leading hi htakes hc hr
  rw [hencode]
  rcases encodeEach_glued hlater hopcode hr with
    ⟨hnone, hstay⟩ | ⟨⟨j, hj, hleads⟩, k, hk, s, hs, hlost⟩
  · exact ⟨iff_of_true hstay hnone, ⟨i, List.mem_cons_self .., c :: r, List.suffix_refl _, hstay⟩,
      fun _ => hstay⟩
  · obtain ⟨hmem, hne⟩ := mem_table_of_mem_later hi hk
    refine ⟨iff_of_false ?_ fun hnone => hnone j hj hleads,
      ⟨k, List.mem_cons_of_mem i hk, s, hs, hlost⟩, fun hupper => ?_⟩
    · -- another instruction has another opcode
      intro hsame
      rw [hlost] at hsame
      exact hne (eq_of_opcode_eq hmem hi (List.cons.inj hsame).1)
    · obtain ⟨rest, hrest, -⟩ := hleads
      exact absurd ⟨rest, hrest.symm⟩ (not_isPrefix_of_second (hlater j hj) hupper)

/-- The opcode and the first operand spell a mnemonic, but no space follows it. -/
theorem encode_applyTo_copied_iff_spelled :
    operator "EVAL8" 'A' ∈ table ∧ (operator "EVAL8" 'A').takesOperands = true
      ∧ MnemonicFree "LLOC,STOPPED TIMER,".toList
      ∧ encode "EVAL8 LLOC,STOPPED TIMER,".toList = "ALLOC,STOPPED TIMER,".toList := by
  have heval : operator "EVAL8" 'A' ∈ table := by decide
  have hfree : MnemonicFree "LLOC,STOPPED TIMER,".toList := by decide +kernel
  have hnone : ∀ j ∈ later (operator "EVAL8" 'A'),
      j.recognise none "ALLOC,STOPPED TIMER,".toList = none := by decide +kernel
  have hcopied := (encode_applyTo_copied_iff (operator "EVAL8" 'A') heval rfl 'L'
    "LOC,STOPPED TIMER,".toList rfl hfree).1
  refine ⟨heval, rfl, hfree, hcopied.2 fun j hj => ?_⟩
  have hregular := regular_of_mem (mem_table_of_mem_later heval hj).1
  exact (recognise_eq_none_iff hregular rfl).1 (hnone j hj)

/-- In front of a space, the opcode and the first operand are encoded once more, and what is left of
them may be so again. -/
theorem encode_applyTo_not_copied :
    MnemonicFree "LLOC 1,".toList ∧ encode "EVAL8 LLOC 1,".toList = "S1,".toList
      ∧ MnemonicFree "LLOC TOP".toList ∧ encode "EVAL8 LLOC TOP".toList = "z".toList := by
  decide +kernel

end ContractAsm.Instruction
