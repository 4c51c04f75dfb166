-- SUMMARY: The second pass over a program, and its assembly.
import ContractAsm.Proofs.Program

/-!
# Object code of programs

The second pass takes each instruction of a program to its object code. No rewriting of the pass
touches what another one has put in: opcodes are no words of their own when there are operands,
locations are digits, and a point is left in front of the digits that are to become a distance.
Together with the first pass, every program is assembled to its object code.
-/

namespace ContractAsm

open Text

namespace Program

/-! ## Characters of operands -/

theorem Operand.isUpper_of_mem (o : Operand) {c : Char} (hc : c ∈ o.text) : c.isUpper = false := by
  cases o with
  | atom a => exact isUpper_of_isSmall (by decide) (a.chars c hc)
  | address n => exact isUpper_of_isSmall (by decide) (n.chars c hc)
  | distance n =>
    rcases List.mem_cons.1 hc with rfl | hc
    · decide
    · exact isUpper_of_isSmall (by decide) (n.chars c hc)

/-- Operands have no capitals, so no mnemonic is among their words. -/
theorem isUpper_of_mem_operandText (first : Atom) (rest : List Operand) {c : Char}
    (hc : c ∈ ObjectCode.operandText (first.text :: rest.map Operand.text)) :
    c.isUpper = false := by
  obtain ⟨o, ho, hmem⟩ := List.mem_flatMap.1 hc
  rcases List.mem_append.1 hmem with hmem | hmem
  · rcases List.mem_cons.1 ho with rfl | ho
    · exact isUpper_of_isSmall (by decide) (first.chars c hmem)
    · obtain ⟨operand, -, rfl⟩ := List.mem_map.1 ho
      exact operand.isUpper_of_mem hmem
  · rw [List.mem_singleton.1 hmem]
    decide

theorem Atom.not_mem (a : Atom) {c : Char} (hc : isSmall '\'' c = false) : c ∉ a.text := by
  intro hmem
  rw [a.chars c hmem] at hc
  cases hc

/-! ## Encoding -/

/-- The opcode takes the place of the mnemonic, and no other pass finds one. -/
theorem encode_applied {i : Instruction} (hi : i ∈ Instruction.table)
    (htakes : i.takesOperands = true) (first : Atom) (rest : List Operand) :
    Instruction.encode (Code.applied i hi htakes first rest).text
      = i.opcode :: ObjectCode.operandText (first.text :: rest.map Operand.text) := by
  obtain ⟨c, cs, hcons⟩ : ∃ c cs, first.text = c :: cs := by
    apply List.exists_cons_of_ne_nil
    intro hnil
    have hstart := first.start
    simp [hnil] at hstart
  have hc : isWordChar c = true := isWordChar_of_small (by simpa [hcons] using first.start)
  have hsmall := fun d hd => isUpper_of_mem_operandText first rest (c := d) hd
  have hopcode : isWordChar i.opcode = true :=
    isWordChar_of_isAlpha (Instruction.regular_of_mem hi).letter
  -- neither the operands nor the opcode glued to the first of them have a mnemonic as a word
  have hnone : ∀ j ∈ Instruction.table,
      j.mnemonic ∉ words (ObjectCode.operandText (first.text :: rest.map Operand.text)) :=
    fun j hj => ((Instruction.regular_of_mem hj).not_mem_words hopcode hsmall).2
  have hglued : ∀ j ∈ Instruction.table, j.mnemonic
      ∉ words (i.opcode :: ObjectCode.operandText (first.text :: rest.map Operand.text)) :=
    fun j hj => ((Instruction.regular_of_mem hj).not_mem_words hopcode hsmall).1
  rw [Code.text]
  rw [ObjectCode.operandText_cons, hcons, List.cons_append] at hnone hglued ⊢
  rw [Instruction.encode_leading hi htakes hc hnone]
  apply Instruction.encodeEach_eq_self
  intro j hj
  have hmem := (Instruction.mem_table_of_mem_later hi hj).1
  exact Instruction.encodeOne_eq_self (Instruction.regular_of_mem hmem) (hglued j hmem)

/-! ## Substituting -/

variable {symbols : SymbolTable} {address : Label → Nat} {index : Nat}

/-- What symbols leave of an operand: the point of a distance is still to be resolved. -/
def Operand.located (address : Label → Nat) : Operand → Text
  | .atom a => a.text
  | .address n => Numeral.digits (address n)
  | .distance n => '.' :: Numeral.digits (address n)

/-- A table of labels in which some of them have the given addresses. -/
structure Locates (symbols : SymbolTable) (address : Label → Nat) (labels : List Label) : Prop
    extends LabelTable symbols where
  located : ∀ n ∈ labels, symbols.get? n.text = some (Numeral.digits (address n))
  small : ∀ n, address n < 10 ^ Limit.digits

variable {labels : List Label}

theorem Locates.mapWords_eq_self (h : Locates symbols address labels) {t : Text} (ht : '_' ∉ t) :
    mapWords symbols.replacement t = t := by
  apply Text.mapWords_eq_self
  intro w hw
  apply SymbolTable.replacement_of_undefined
  rw [SymbolTable.get?_eq_none_iff]
  rintro d hd rfl
  exact ht ((mem_words hw).2 '_' (List.mem_of_head? (h.marked d hd)))

theorem Locates.mapWords_label (h : Locates symbols address labels) {n : Label} (hn : n ∈ labels) :
    mapWords symbols.replacement n.text = Numeral.digits (address n) := by
  rw [n.isWord.mapWords_eq, SymbolTable.replacement_of_get? (h.located n hn)]

theorem Locates.mapWords_operand (h : Locates symbols address labels) (o : Operand)
    (ho : ∀ n ∈ o.label?, n ∈ labels) :
    mapWords symbols.replacement o.text = o.located address := by
  cases o with
  | atom a => exact h.mapWords_eq_self (a.not_mem (by decide))
  | address n => exact h.mapWords_label (ho n rfl)
  | distance n =>
    rw [Operand.text, mapWords_cons_break (by decide), h.mapWords_label (ho n rfl)]
    rfl

/-! ## Resolving -/

theorem resolveAddresses_comma {t : Text} (ht : '.' ∉ t) (rest : Text) :
    ObjectCode.resolveAddresses index (t ++ ',' :: rest)
      = (ObjectCode.resolveAddresses index rest).map (t ++ ',' :: ·) := by
  have hcopy : ObjectCode.resolveAddresses index (t ++ [','] ++ rest)
      = (ObjectCode.resolveAddresses index rest).map (t ++ [','] ++ ·) :=
    ObjectCode.resolveAddresses_append (by simpa using ht) rest
  simpa using hcopy

/-- One operand and the comma behind it. -/
theorem Locates.resolveAddresses_operand (h : Locates symbols address labels)
    (hindex : index < 10 ^ Limit.digits) (o : Operand) (rest : Text) :
    ObjectCode.resolveAddresses index (o.located address ++ ',' :: rest)
      = (ObjectCode.resolveAddresses index rest).map (o.object address index ++ ',' :: ·) := by
  have hdigits : ∀ n, '.' ∉ Numeral.digits n := by
    intro n hmem
    cases Numeral.isDigit_of_mem_digits hmem
  cases o with
  | atom a => exact resolveAddresses_comma (a.not_mem (by decide)) rest
  | address n => exact resolveAddresses_comma (hdigits _) rest
  | distance n =>
    have hnear : ((address n : Int) - index).natAbs < 10 ^ Limit.digits := by
      have hsmall := h.small n
      omega
    have hnext : ObjectCode.resolveAddresses index (',' :: rest)
        = (ObjectCode.resolveAddresses index rest).map (',' :: ·) :=
      resolveAddresses_comma (t := []) (by simp) rest
    rw [Operand.located, ObjectCode.resolveAddresses_address (h.small n) hnear rfl, hnext]
    cases ObjectCode.resolveAddresses index rest with
    | error e => rfl
    | ok t => rfl

theorem Locates.resolveAddresses_operands (h : Locates symbols address labels)
    (hindex : index < 10 ^ Limit.digits) (os : List Operand) :
    ObjectCode.resolveAddresses index (ObjectCode.operandText (os.map (Operand.located address)))
      = .ok (ObjectCode.operandText (os.map (Operand.object address index))) := by
  induction os with
  | nil => rfl
  | cons o os ih =>
    rw [List.map_cons, ObjectCode.operandText_cons, h.resolveAddresses_operand hindex, ih,
      List.map_cons, ObjectCode.operandText_cons]
    rfl

/-! ## Instructions -/

theorem not_mem_opcode_cons {i : Instruction} (hi : i ∈ Instruction.table) (a : Atom) {c : Char}
    (halpha : c.isAlpha = false) (hc : isSmall '\'' c = false) : c ∉ i.opcode :: a.text := by
  intro hmem
  rcases List.mem_cons.1 hmem with rfl | hmem
  · rw [(Instruction.regular_of_mem hi).letter] at halpha
    cases halpha
  · exact a.not_mem hc hmem

/-- The object code of one instruction. -/
theorem Locates.encodeStatement_eq [Platform] (h : Locates symbols address labels)
    (hindex : index < 10 ^ Limit.digits) (c : Code) (hc : ∀ n ∈ c.references, n ∈ labels)
    (line : Nat) :
    ObjectCode.encodeStatement symbols ⟨c.text, index, line⟩ = .ok (c.object address index) := by
  cases c with
  | alone i hi =>
    have hletter := (Instruction.regular_of_mem hi).letter
    have hopcode : ∀ c : Char, c.isAlpha = false → c ∉ [i.opcode] := by
      intro c hc hmem
      rw [List.mem_singleton.1 hmem, hletter] at hc
      cases hc
    rw [Code.text, ObjectCode.encodeStatement_mnemonic hi, h.substitute_eq,
      h.mapWords_eq_self (hopcode '_' (by decide)),
      ObjectCode.resolveAddresses_eq_self (hopcode '.' (by decide)), Code.object]
  | applied i hi htakes first rest =>
    have hline : i.opcode :: ObjectCode.operandText (first.text :: rest.map Operand.text)
        = ObjectCode.operandText ((i.opcode :: first.text) :: rest.map Operand.text) := by
      rw [ObjectCode.operandText_cons, ObjectCode.operandText_cons, List.cons_append]
    have hquote :
        '"' ∉ i.opcode :: ObjectCode.operandText (first.text :: rest.map Operand.text) := by
      intro hmem
      rcases List.mem_cons.1 hmem with hopcode | hmem
      · have hletter := (Instruction.regular_of_mem hi).letter
        rw [← hopcode] at hletter
        cases hletter
      · cases (Code.applied i hi htakes first rest).isCodeChar_of_mem
          (List.mem_append_right _ (List.mem_cons_of_mem ' ' hmem))
    -- commas keep the operands apart when words are replaced
    have hmap : (rest.map Operand.text).map (mapWords symbols.replacement)
        = rest.map (Operand.located address) := by
      rw [List.map_map]
      apply List.map_congr_left
      intro o ho
      apply h.mapWords_operand o
      intro n hn
      exact hc n (List.mem_filterMap.2 ⟨o, ho, hn⟩)
    -- the opcode and the first operand have no mark, so there is no label among their words
    have hfirst : mapWords symbols.replacement (i.opcode :: first.text) = i.opcode :: first.text :=
      h.mapWords_eq_self (not_mem_opcode_cons hi first (by decide) (by decide))
    have hpoint : '.' ∉ i.opcode :: first.text :=
      not_mem_opcode_cons hi first (by decide) (by decide)
    simp only [ObjectCode.encodeStatement, encode_applied,
      Literal.encodeStrings_of_no_quote hquote]
    rw [hline, h.substitute_eq, ObjectCode.mapWords_operandText, List.map_cons, hfirst, hmap,
      ObjectCode.operandText_cons, resolveAddresses_comma hpoint,
      h.resolveAddresses_operands hindex, Code.object, ObjectCode.operandText_cons]
    rfl

/-! ## Whole programs -/

theorem Code.trim_text (c : Code) : trim c.text = c.text := by
  obtain ⟨x, xs, hcons, hword, -⟩ := c.text_eq_cons
  exact trim_eq_self (by simp [hcons, isBlank_of_isWordChar hword]) c.text_getLast?

/-- A line of object code starts with an opcode, and ends with it or with a comma. -/
theorem Code.object_ends (c : Code) : c.object address index ≠ []
    ∧ (c.object address index).head?.any isBlank = false
    ∧ (c.object address index).getLast?.any isBlank = false := by
  have hopcode : ∀ i ∈ Instruction.table, isBlank i.opcode = false := fun i hi =>
    isBlank_of_isWordChar (isWordChar_of_isAlpha (Instruction.regular_of_mem hi).letter)
  cases c with
  | alone i hi => exact ⟨List.cons_ne_nil _ _, hopcode i hi, hopcode i hi⟩
  | applied i hi _ first rest =>
    refine ⟨List.cons_ne_nil _ _, hopcode i hi, ?_⟩
    have hne :
        ObjectCode.operandText (first.text :: rest.map (Operand.object address index)) ≠ [] := by
      simp [ObjectCode.operandText]
    rw [Code.object, ← List.singleton_append, List.getLast?_append_of_ne_nil _ hne,
      operandText_getLast? (by simp)]
    decide

theorem isWordChar_of_mem_digits {n : Nat} {c : Char} (hc : c ∈ Numeral.digits n) :
    isWordChar c = true :=
  isWordChar_of_isDigit (Numeral.isDigit_of_mem_digits hc)

theorem Operand.isCodeChar_of_mem_object (o : Operand) {c : Char}
    (hc : c ∈ o.object address index) : isCodeChar c = true := by
  cases o with
  | atom a => exact a.isCodeChar_of_mem hc
  | address n => exact isCodeChar_of_isWordChar (isWordChar_of_mem_digits hc)
  | distance n =>
    rw [Operand.object, ObjectCode.distanceText] at hc
    split at hc
    · rcases List.mem_cons.1 hc with rfl | hc
      · decide
      · exact isCodeChar_of_isWordChar (isWordChar_of_mem_digits hc)
    · exact isCodeChar_of_isWordChar (isWordChar_of_mem_digits hc)

theorem Code.isCodeChar_of_mem_object (code : Code) {c : Char}
    (hc : c ∈ code.object address index) : isCodeChar c = true := by
  have hopcode : ∀ i ∈ Instruction.table, isCodeChar i.opcode = true := fun i hi =>
    isCodeChar_of_isWordChar (isWordChar_of_isAlpha (Instruction.regular_of_mem hi).letter)
  cases code with
  | alone i hi =>
    rw [List.mem_singleton.1 hc]
    exact hopcode i hi
  | applied i hi _ first rest =>
    rcases List.mem_cons.1 hc with rfl | hc
    · exact hopcode i hi
    · refine isCodeChar_of_mem_operandText ?_ hc
      intro o ho c hc
      rcases List.mem_cons.1 ho with rfl | ho
      · exact first.isCodeChar_of_mem hc
      · obtain ⟨operand, -, rfl⟩ := List.mem_map.1 ho
        exact operand.isCodeChar_of_mem_object hc

theorem isHalf_of_isCodeChar [Platform] {c : Char} (h : isCodeChar c = true) :
    isHalf c = false := by
  simp only [isCodeChar, Bool.or_eq_true, beq_iff_eq, or_assoc] at h
  rcases h with h | rfl | rfl | rfl | rfl
  · exact isHalf_of_isWordChar h
  all_goals exact isHalf_eq_false (by decide)

theorem Line.oneLine (l : Line) : '\n' ∉ l.text := by
  cases l with
  | remark r => exact r.oneLine
  | label before n after =>
    have hbody : '\n' ∉ n.definition := fun hmem => by
      cases n.isCodeChar_of_mem_definition hmem
    simp [Line.text, before.oneLine, hbody, after.oneLine]
  | code before c after =>
    have hbody : '\n' ∉ c.text := fun hmem => by cases c.isCodeChar_of_mem hmem
    simp [Line.text, before.oneLine, hbody, after.oneLine]

variable {ls : List Line} {p : Listing.Progress}

/-- The first pass over the text of some lines. -/
theorem exists_represents [Platform] (filename : String) (hsize : ls.length < 10 ^ Limit.digits) :
    ∃ p, (Listing.Progress.start.addLines filename 1
        (Text.lines (ofLines (ls.map Line.text)))).result
        = .ok p
      ∧ Represents ls p := by
  cases ls with
  | nil =>
    -- the empty text still has one line, which is blank
    exact ⟨.start, rfl, represents_start⟩
  | cons l ls =>
    have honeLine : ∀ line ∈ (l :: ls).map Line.text, '\n' ∉ line := by
      intro line hline
      obtain ⟨l, -, rfl⟩ := List.mem_map.1 hline
      exact l.oneLine
    rw [lines_ofLines (by simp) honeLine]
    exact represents_start.run filename 1 hsize

theorem Represents.locates (h : Represents ls p) (hsize : ls.length < 10 ^ Limit.digits)
    (hlabels : ∀ n ∈ labels, ls.any (·.defines n) = true) :
    Locates p.symbols (addressOf ls) labels where
  toLabelTable := h.table
  located := fun n hn => h.labels n (hlabels n hn)
  small := fun n => Nat.lt_of_le_of_lt (addressOf_le ls n) hsize

/-- The second pass over what the first one has collected. -/
theorem Represents.encodeStatements_eq [Platform] (h : Represents ls p)
    (hsize : ls.length < 10 ^ Limit.digits)
    (hclosed : ∀ c ∈ codes ls, ∀ n ∈ c.references, ls.any (·.defines n) = true) :
    ObjectCode.encodeStatements p.symbols p.statements.toList
      = .ok ((codes ls).zipIdx.map fun c => c.1.object (addressOf ls) c.2) := by
  apply ObjectCode.encodeStatements_eq_ok
  rw [List.forall₂_map_right_iff, List.forall₂_iff_zip]
  obtain ⟨hlength, hstatements⟩ := List.forall₂_iff_zip.1 h.statements
  refine ⟨hlength, ?_⟩
  -- a statement next to its instruction and the index of it
  rintro ⟨text, index, line⟩ ⟨c, k⟩ hmem
  obtain ⟨rfl, rfl⟩ := hstatements hmem
  have hcode : (c, k) ∈ (codes ls).zipIdx := (List.of_mem_zip hmem).2
  have hc : c ∈ codes ls := List.fst_mem_of_mem_zipIdx hcode
  have hk : k < (codes ls).length := List.snd_lt_of_mem_zipIdx hcode
  have hindex : k < 10 ^ Limit.digits := by
    have hcodes := length_codes_le ls
    omega
  refine ⟨?_, (h.locates hsize (hclosed c hc)).encodeStatement_eq hindex c (fun _ hn => hn) line⟩
  obtain ⟨x, xs, hcons, -⟩ := c.text_eq_cons
  rw [c.trim_text]
  simp [hcons]

/-- Every program is assembled to its object code. -/
theorem assemble_source [Platform] (program : Program) (verbose : Bool) (filename : String)
    (hsize : program.lines.length < 10 ^ Limit.digits) :
    ∃ a, (assemble verbose filename program.source).2 = .assembled a
      ∧ a.objectCode = program.objectCode := by
  obtain ⟨p, hlines, hrepresents⟩ := exists_represents filename hsize
  have hlisting := Listing.ofSource_of_addLines hlines hrepresents.collector
  have hcodes := hrepresents.encodeStatements_eq hsize program.closed
  have hcharacters : ∀ line ∈ (codes program.lines).zipIdx.map
      (fun c => c.1.object (addressOf program.lines) c.2), ∀ c ∈ line, isHalf c = false := by
    intro line hline c hc
    obtain ⟨code, -, rfl⟩ := List.mem_map.1 hline
    exact isHalf_of_isCodeChar (code.1.isCodeChar_of_mem_object hc)
  obtain ⟨a, hassembled, hcode⟩ := assemble_of_listing verbose hlisting hcodes
    (any_isHalf_trim_ofLines hcharacters)
  refine ⟨a, hassembled, hcode.trans ?_⟩
  have hends : ∀ line ∈ (codes program.lines).zipIdx.map
      (fun c => c.1.object (addressOf program.lines) c.2), line ≠ []
        ∧ line.head?.any isBlank = false ∧ line.getLast?.any isBlank = false := by
    intro line hline
    obtain ⟨c, -, rfl⟩ := List.mem_map.1 hline
    exact c.1.object_ends
  exact trim_ofLines (fun line hline => (hends line hline).1)
    (fun line hline => (hends line hline).2.1) (fun line hline => (hends line hline).2.2)

/-- A loop with a label behind it, and one label that is defined twice. -/
def countdown : Program where
  lines :=
    let flush : Blanks := ⟨[], List.all_eq_true.1 rfl, by decide⟩
    let indent : Blanks := ⟨"  ".toList, List.all_eq_true.1 (by decide), by decide⟩
    let gi0 : Atom := ⟨"gi0".toList, by decide, List.all_eq_true.1 (by decide)⟩
    let ten : Atom := ⟨"x'0a".toList, by decide, List.all_eq_true.1 (by decide)⟩
    let back : Label := ⟨"_loop".toList, by decide, List.all_eq_true.1 (by decide)⟩
    let stop : Label := ⟨"_end".toList, by decide, List.all_eq_true.1 (by decide)⟩
    [.remark ⟨"; count down".toList, by decide, by decide, by decide⟩,
      .label flush stop flush,
      .code indent (.applied (.operator "EVAL8" 'A') (by decide) rfl gi0 [.atom ten]) indent,
      .label flush back indent,
      .code flush (.applied (.operator "IF" 'K') (by decide) rfl gi0 [.distance stop]) flush,
      .code indent (.applied (.operator "CALL" 'L') (by decide) rfl gi0
        [.address stop, .distance back]) flush,
      .label indent stop flush,
      .code flush (.alone (.bare "STOP" 'z') (by decide)) flush]
  closed := by decide

theorem assemble_source_countdown :
    countdown.lines.length < 10 ^ Limit.digits
      ∧ countdown.source = ofLines ["; count down".toList, "define _end .".toList,
        "  EVAL8 gi0,x'0a,  ".toList, "define _loop .  ".toList, "IF gi0,._end,".toList,
        "  CALL gi0,_end,._loop,".toList, "  define _end .".toList, "STOP".toList]
      ∧ ∃ a, (assemble false "main.asm" countdown.source).2 = .assembled a
        ∧ a.objectCode = "Agi0,x'0a,\nKgi0,2,\nLgi0,3,n1,\nz".toList := by
  have hsize : countdown.lines.length < 10 ^ Limit.digits :=
    Nat.lt_of_lt_of_le (by decide : 8 < 10) (Nat.le_self_pow (by decide) 10)
  refine ⟨hsize, by decide +kernel, ?_⟩
  obtain ⟨a, hassembled, hcode⟩ := assemble_source countdown false "main.asm" hsize
  exact ⟨a, hassembled, hcode.trans (by decide)⟩

end Program

end ContractAsm
