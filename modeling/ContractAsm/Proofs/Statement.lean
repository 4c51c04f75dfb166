-- SUMMARY: Statements of a mnemonic with operands, and when names are replaced in them.
import ContractAsm.Proofs.Address
import ContractAsm.Proofs.Instruction
import ContractAsm.Proofs.Literal
import ContractAsm.Proofs.Symbol

/-!
# Statements

The object code of a statement that is a mnemonic, or a mnemonic with operands. The opcode takes the
place of the mnemonic and of the space behind it before symbols are substituted. It is therefore a
word like any other when it stands alone, and part of the first operand when there are operands.
-/

namespace ContractAsm

open Text

namespace ObjectCode

variable {symbols : SymbolTable} {i : Instruction}

/-! ## A mnemonic alone -/

theorem encodeStatement_mnemonic [Platform] (hi : i ∈ Instruction.table) (index : Int)
    (sourceLine : Nat) :
    encodeStatement symbols ⟨i.mnemonic, index, sourceLine⟩
      = resolveAddresses index (symbols.substitute [i.opcode]) := by
  have hquote : '"' ∉ [i.opcode] := by
    intro h
    have hletter := (Instruction.regular_of_mem hi).letter
    rw [← List.mem_singleton.1 h] at hletter
    cases hletter
  simp only [encodeStatement, Instruction.encode_mnemonic hi,
    Literal.encodeStrings_of_no_quote hquote]

/-- A mnemonic alone is encoded by its opcode just if the symbols lead the opcode back to itself.
They do if the opcode is not the name of a symbol. -/
theorem encodeStatement_mnemonic_iff [Platform]
    (hnames : ∀ d ∈ symbols.definitions, SymbolTable.IsIdentifier d.name)
    (hi : i ∈ Instruction.table) (index : Int) (sourceLine : Nat) :
    (encodeStatement symbols ⟨i.mnemonic, index, sourceLine⟩ = .ok [i.opcode]
        ↔ symbols.follow [i.opcode] = [i.opcode])
      ∧ (symbols.get? [i.opcode] = none →
        encodeStatement symbols ⟨i.mnemonic, index, sourceLine⟩ = .ok [i.opcode]) := by
  have hregular := Instruction.regular_of_mem hi
  have hdot : i.opcode ≠ '.' := by
    intro h
    have hletter := hregular.letter
    rw [h] at hletter
    cases hletter
  have hiff : encodeStatement symbols ⟨i.mnemonic, index, sourceLine⟩ = .ok [i.opcode]
      ↔ symbols.follow [i.opcode] = [i.opcode] := by
    rw [encodeStatement_mnemonic hi, resolveAddresses_eq_char_iff hdot hregular.not_isDigit]
    exact SymbolTable.substitute_eq_word_iff (fun d hd => (hnames d hd).1) hregular.isWord_opcode _
  exact ⟨hiff, fun hnone => hiff.2 (SymbolTable.follow_of_undefined hnone)⟩

/-- The symbols `loop` and `size`, and one with the name of an opcode. -/
def sampleSymbols : SymbolTable :=
  ⟨[⟨"loop".toList, "12".toList, 12, 3⟩, ⟨"size".toList, "40".toList, 0, 1⟩,
    ⟨"A".toList, "5".toList, 0, 2⟩]⟩

theorem encodeStatement_mnemonic_iff_sample :
    (∀ d ∈ sampleSymbols.definitions, SymbolTable.IsIdentifier d.name)
      ∧ (encodeStatement sampleSymbols ⟨"EVAL8".toList, 4, 9⟩ = .ok ['A']
        ↔ sampleSymbols.follow ['A'] = ['A'])
      ∧ encodeStatement sampleSymbols ⟨"EVAL16".toList, 4, 9⟩ = .ok ['B'] := by
  have hnames : ∀ d ∈ sampleSymbols.definitions, SymbolTable.IsIdentifier d.name := by decide
  refine ⟨hnames, ?_, ?_⟩
  · exact (encodeStatement_mnemonic_iff (i := .operator "EVAL8" 'A') hnames (by decide) 4 9).1
  · exact (encodeStatement_mnemonic_iff (i := .operator "EVAL16" 'B') hnames (by decide) 4 9).2
      (by decide)

/-- The opcode of `EVAL8` is taken for the symbol of that name. -/
theorem encodeStatement_mnemonic_defined :
    encodeStatement sampleSymbols ⟨"EVAL8".toList, 4, 9⟩ = .ok ['5'] :=
  encodeStatement_mnemonic (i := .operator "EVAL8" 'A') (by decide) 4 9

/-! ## A mnemonic with operands -/

/-- Operands as they are written: each with a comma behind it. -/
def operandText (operands : List Text) : Text :=
  operands.flatMap (· ++ [','])

theorem operandText_cons (o : Text) (operands : List Text) :
    operandText (o :: operands) = o ++ ',' :: operandText operands := by
  simp [operandText]

theorem words_operandText (operands : List Text) :
    words (operandText operands) = operands.flatMap words := by
  induction operands with
  | nil => rfl
  | cons o operands ih =>
    rw [operandText_cons, words_append_break (by decide), ih, List.flatMap_cons]

theorem mapWords_operandText {g : Text → Text} (operands : List Text) :
    mapWords g (operandText operands) = operandText (operands.map (mapWords g)) := by
  induction operands with
  | nil => rfl
  | cons o operands ih =>
    rw [operandText_cons, mapWords_append_break (by decide), ih, List.map_cons, operandText_cons]

theorem mem_of_mem_words_operandText {operands : List Text} (h : ∀ o ∈ operands, IsWord o)
    {w : Text} (hw : w ∈ words (operandText operands)) : w ∈ operands := by
  rw [words_operandText] at hw
  obtain ⟨o, ho, hmem⟩ := List.mem_flatMap.1 hw
  rw [(h o ho).words_eq, List.mem_singleton] at hmem
  rwa [hmem]

/-- Operands that are rows hold no character but word characters and the commas between them. -/
theorem not_mem_operandText {c : Char} {operands : List Text} (h : ∀ o ∈ operands, IsRow o)
    (hc : isWordChar c = false) (hcomma : c ≠ ',') : c ∉ operandText operands := by
  intro hmem
  obtain ⟨o, ho, hmem⟩ := List.mem_flatMap.1 hmem
  rcases List.mem_append.1 hmem with hmem | hmem
  · have hword := h o ho c hmem
    rw [hc] at hword
    cases hword
  · exact hcomma (List.mem_singleton.1 hmem)

/-- A row of small letters and digits that is not empty. -/
def IsLiteral (t : Text) : Prop :=
  t ≠ [] ∧ ∀ c ∈ t, (c.isLower || c.isDigit) = true

instance (t : Text) : Decidable (IsLiteral t) :=
  decidable_of_iff (t ≠ [] ∧ t.all (fun c => c.isLower || c.isDigit) = true)
    (and_congr Iff.rfl List.all_eq_true)

theorem IsLiteral.isWord {t : Text} (h : IsLiteral t) : IsWord t :=
  ⟨h.1, fun c hc => isWordChar_of_small (h.2 c hc)⟩

theorem IsLiteral.ne_mnemonic {t : Text} (h : IsLiteral t) (hi : i.Regular) : t ≠ i.mnemonic := by
  rintro rfl
  obtain ⟨c, hc, hupper⟩ := hi.exists_isUpper
  have hsmall := isUpper_of_small (h.2 c (List.mem_of_mem_tail hc))
  rw [hupper] at hsmall
  cases hsmall

/-- A table of numbers in which no name is a single character or a mnemonic. -/
structure Addressing (symbols : SymbolTable) : Prop extends symbols.Numeric where
  long : ∀ d ∈ symbols.definitions, 2 ≤ d.name.length
  notMnemonic : ∀ d ∈ symbols.definitions, ∀ j ∈ Instruction.table, d.name ≠ j.mnemonic

/-- An operand that is a literal or the name of a symbol. -/
def IsOperand (symbols : SymbolTable) (o : Text) : Prop :=
  IsLiteral o ∨ (symbols.get? o).isSome = true

instance (o : Text) : Decidable (IsOperand symbols o) :=
  inferInstanceAs (Decidable (_ ∨ _))

theorem IsOperand.isWord {o : Text} (h : IsOperand symbols o) (hs : Addressing symbols) :
    IsWord o := by
  rcases h with h | h
  · exact h.isWord
  · obtain ⟨location, hget⟩ := Option.isSome_iff_exists.1 h
    exact (hs.isIdentifier_of_get? hget).1

theorem IsOperand.ne_mnemonic {o : Text} (h : IsOperand symbols o) (hs : Addressing symbols)
    (hi : i ∈ Instruction.table) : o ≠ i.mnemonic := by
  rcases h with h | h
  · exact h.ne_mnemonic (Instruction.regular_of_mem hi)
  · obtain ⟨location, hget⟩ := Option.isSome_iff_exists.1 h
    obtain ⟨d, hd, rfl, -⟩ := SymbolTable.exists_of_get? hget
    exact hs.notMnemonic d hd i hi

/-- Every word of the encoded line is replaced. The first one is the opcode together with the first
operand, or the opcode of an instruction that has these two as its mnemonic. -/
theorem encodeStatement_applied [Platform] (hs : Addressing symbols) (hi : i ∈ Instruction.table)
    (htakes : i.takesOperands = true) {first : Text} {rest : List Text}
    (hoperands : ∀ o ∈ first :: rest, IsOperand symbols o) (index : Int) (sourceLine : Nat) :
    ∃ head, IsWord head
      ∧ (head = i.opcode :: first
        ∨ ∃ j ∈ Instruction.table, j.takesOperands = false ∧ head = [j.opcode])
      ∧ encodeStatement symbols
          ⟨i.mnemonic ++ ' ' :: operandText (first :: rest), index, sourceLine⟩
        = .ok (operandText ((head :: rest).map symbols.replacement)) := by
  have hwords : ∀ o ∈ first :: rest, IsWord o := fun o ho => (hoperands o ho).isWord hs
  have hwordsRest : ∀ o ∈ rest, IsWord o := fun o ho => hwords o (List.mem_cons_of_mem first ho)
  have hnone : ∀ j ∈ Instruction.table, j.mnemonic ∉ words (operandText (first :: rest)) := by
    intro j hj hmem
    have hoperand := mem_of_mem_words_operandText hwords hmem
    exact (hoperands j.mnemonic hoperand).ne_mnemonic hs hj rfl
  have hfirst := hwords first (List.mem_cons_self ..)
  obtain ⟨c, cs, hcons⟩ := List.exists_cons_of_ne_nil hfirst.1
  have hc : isWordChar c = true := hfirst.2 c (by simp [hcons])
  have hglued : IsWord (i.opcode :: first) :=
    ⟨List.cons_ne_nil _ _,
      hfirst.2.cons (isWordChar_of_isAlpha (Instruction.regular_of_mem hi).letter)⟩
  -- the pass for the mnemonic leaves the opcode in front of the first operand
  have hleading : Instruction.encode (i.mnemonic ++ ' ' :: operandText (first :: rest))
      = Instruction.encodeEach (Instruction.later i)
        ((i.opcode :: first) ++ ',' :: operandText rest) := by
    rw [operandText_cons, hcons, List.cons_append] at hnone ⊢
    exact Instruction.encode_leading hi htakes hc hnone
  obtain ⟨head, hhead, hencode, hcases⟩ := Instruction.encodeEach_first_word
    (fun j hj => (Instruction.mem_table_of_mem_later hi hj).1) hglued
    (not_mem_operandText (fun o ho => (hwordsRest o ho).2) (by decide) (by decide)) (by
      intro j hj hmem
      have hoperand := List.mem_cons_of_mem first (mem_of_mem_words_operandText hwordsRest hmem)
      exact (hoperands j.mnemonic hoperand).ne_mnemonic hs hj rfl)
  refine ⟨head, hhead, hcases, ?_⟩
  have hall : ∀ o ∈ head :: rest, IsWord o := by
    intro o ho
    rcases List.mem_cons.1 ho with rfl | ho
    · exact hhead
    · exact hwordsRest o ho
  have hquote : '"' ∉ operandText (head :: rest) :=
    not_mem_operandText (fun o ho => (hall o ho).2) (by decide) (by decide)
  -- after the symbols are replaced there is still no address to resolve
  have hdot : '.' ∉ operandText ((head :: rest).map symbols.replacement) := by
    apply not_mem_operandText _ (by decide) (by decide)
    intro o ho
    obtain ⟨p, hp, rfl⟩ := List.mem_map.1 ho
    exact hs.isRow_replacement (hall p hp).2
  have hmap : (head :: rest).map (mapWords symbols.replacement)
      = (head :: rest).map symbols.replacement :=
    List.map_congr_left fun o ho => (hall o ho).mapWords_eq
  rw [encodeStatement, hleading, hencode, ← operandText_cons,
    Literal.encodeStrings_of_no_quote hquote, hs.substitute_eq, mapWords_operandText, hmap,
    resolveAddresses_eq_self hdot]

/-- Whatever the opcode and the first operand turn into, it is not the opcode followed by the
location of that operand. -/
theorem replacement_first_ne (hs : Addressing symbols) (hi : i ∈ Instruction.table)
    (htakes : i.takesOperands = true) {first location head : Text}
    (hget : symbols.get? first = some location)
    (hhead : head = i.opcode :: first
      ∨ ∃ j ∈ Instruction.table, j.takesOperands = false ∧ head = [j.opcode]) :
    symbols.replacement head ≠ i.opcode :: location := by
  rcases hhead with rfl | ⟨j, hj, hbare, rfl⟩
  · cases hglued : symbols.get? (i.opcode :: first) with
    | none =>
      -- the name is left as it is, and no name is a row of digits
      rw [SymbolTable.replacement_of_undefined hglued]
      intro hsame
      obtain ⟨-, rfl⟩ := List.cons.inj hsame
      obtain ⟨hword, hhead⟩ := hs.isIdentifier_of_get? hget
      obtain ⟨c, cs, rfl⟩ := List.exists_cons_of_ne_nil hword.1
      have hdigit := hs.isDigit_of_get? hget c (List.mem_cons_self ..)
      simp [hdigit] at hhead
    | some other =>
      rw [SymbolTable.replacement_of_get? hglued]
      rintro rfl
      have hdigit := hs.isDigit_of_get? hglued i.opcode (List.mem_cons_self ..)
      rw [(Instruction.regular_of_mem hi).not_isDigit] at hdigit
      cases hdigit
  · -- one character is no name, and the opcodes of two instructions are not the same
    have hundefined : symbols.get? [j.opcode] = none := by
      rw [SymbolTable.get?_eq_none_iff]
      intro d hd hname
      have hlong := hs.long d hd
      simp [hname] at hlong
    rw [SymbolTable.replacement_of_undefined hundefined]
    intro hsame
    have hij := Instruction.eq_of_opcode_eq hj hi (List.cons.inj hsame).1
    rw [hij, htakes] at hbare
    cases hbare

/-- The operands of a statement that are names of symbols are replaced by their locations, except
for the first one, which never is: the opcode is in front of it when symbols are substituted. -/
theorem encodeStatement_operands_iff [Platform] (hs : Addressing symbols)
    (hi : i ∈ Instruction.table)
    (htakes : i.takesOperands = true) {operands : List Text} (hne : operands ≠ [])
    (hoperands : ∀ o ∈ operands, IsOperand symbols o) (index : Int) (sourceLine : Nat) :
    ∃ fields, fields.length = operands.length ∧ (∀ field ∈ fields, ',' ∉ field)
      ∧ encodeStatement symbols ⟨i.mnemonic ++ ' ' :: operandText operands, index, sourceLine⟩
        = .ok (operandText fields)
      ∧ ∀ j o location, operands[j]? = some o → symbols.get? o = some location →
        (fields[j]? = some (if j = 0 then i.opcode :: location else location) ↔ j ≠ 0) := by
  obtain ⟨first, rest, rfl⟩ := List.exists_cons_of_ne_nil hne
  obtain ⟨head, hword, hhead, hencode⟩ :=
    encodeStatement_applied hs hi htakes hoperands index sourceLine
  refine ⟨(head :: rest).map symbols.replacement, by simp, ?_, hencode, ?_⟩
  · intro field hfield hcomma
    obtain ⟨o, ho, rfl⟩ := List.mem_map.1 hfield
    have hrow : IsRow o := by
      rcases List.mem_cons.1 ho with rfl | ho
      · exact hword.2
      · exact ((hoperands o (List.mem_cons_of_mem first ho)).isWord hs).2
    cases hs.isRow_replacement hrow ',' hcomma
  · intro j o location hj hget
    cases j with
    | zero =>
      obtain rfl : first = o := by simpa using hj
      simpa using replacement_first_ne hs hi htakes hget hhead
    | succ j =>
      have hj : rest[j]? = some o := by simpa using hj
      simp [hj, SymbolTable.replacement_of_get? hget]

/-- The symbols `loop` and `size`. -/
def addressSymbols : SymbolTable :=
  ⟨[⟨"loop".toList, "12".toList, 12, 3⟩, ⟨"size".toList, "40".toList, 0, 1⟩]⟩

theorem encodeStatement_operands_iff_call :
    Addressing addressSymbols ∧ (∀ o ∈ ["loop".toList, "size".toList], IsOperand addressSymbols o)
      ∧ ∃ fields : List Text, fields.length = 2 ∧ (∀ field ∈ fields, ',' ∉ field)
        ∧ encodeStatement addressSymbols
            ⟨"CALL".toList ++ ' ' :: operandText ["loop".toList, "size".toList], 4, 9⟩
          = .ok (operandText fields)
        ∧ ∀ j o location, ["loop".toList, "size".toList][j]? = some o →
          addressSymbols.get? o = some location →
          (fields[j]? = some (if j = 0 then 'L' :: location else location) ↔ j ≠ 0) := by
  have hdigits : ∀ d ∈ addressSymbols.definitions, d.location.all Char.isDigit = true := by decide
  have hs : Addressing addressSymbols :=
    { identifier := by decide
      digits := fun d hd => List.all_eq_true.1 (hdigits d hd)
      long := by decide
      notMnemonic := by decide }
  have hoperands : ∀ o ∈ ["loop".toList, "size".toList], IsOperand addressSymbols o := by decide
  exact ⟨hs, hoperands, encodeStatement_operands_iff (i := .operator "CALL" 'L') hs (by decide) rfl
    (by decide) hoperands 4 9⟩

set_option maxRecDepth 2000 in
/-- In `CALL loop,size,` the first symbol stays. -/
theorem encodeStatement_first_operand :
    encodeStatement addressSymbols ⟨"CALL loop,size,".toList, 4, 9⟩ = .ok "Lloop,40,".toList := by
  rfl

end ObjectCode

end ContractAsm
