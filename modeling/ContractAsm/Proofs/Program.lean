-- SUMMARY: Programs by their lines, their sources and object codes, and the first pass over them.
import ContractAsm.Proofs.Listing
import ContractAsm.Proofs.Statement
import Mathlib.Data.List.DropRight

/-!
# Programs

A program is given by its lines, with the parts of each of them kept apart. It has a source, which
is the text of the lines, and an object code, which says where each label stands and what each
operand is taken to. The first pass over the source collects the instructions and the places of the
labels.
-/

namespace ContractAsm

open Text

namespace Program

/-! ## Parts of a line -/

/-- Blanks at an end of a line. -/
structure Blanks where
  text : Text
  blank : ∀ c ∈ text, isBlank c = true
  oneLine : '\n' ∉ text

/-- A blank line or a comment that is no directive. -/
structure Remark where
  text : Text
  oneLine : '\n' ∉ text
  shape : trim text = [] ∨ (trim text).head? = some ';'
  noDirective : Directive.isDirective (trim text) = false

/-- A small letter, a digit or the given mark. -/
def isSmall (mark c : Char) : Bool :=
  c.isLower || c.isDigit || c == mark

/-- A literal: small letters and digits, with apostrophes behind the first of them. -/
structure Atom where
  text : Text
  start : text.head?.any (fun c => c.isLower || c.isDigit) = true
  chars : ∀ c ∈ text, isSmall '\'' c = true

/-- The name of a place: it starts with an underscore. -/
structure Label where
  text : Text
  start : text.head? = some '_'
  chars : ∀ c ∈ text, isSmall '_' c = true

/-- An operand: a literal, the address of a label or the distance to it. -/
inductive Operand where
  | atom (a : Atom)
  | address (n : Label)
  | distance (n : Label)

/-- An instruction alone or with operands, the first of which is a literal. -/
inductive Code where
  | alone (i : Instruction) (hi : i ∈ Instruction.table)
  | applied (i : Instruction) (hi : i ∈ Instruction.table) (htakes : i.takesOperands = true)
      (first : Atom) (rest : List Operand)

inductive Line where
  | remark (r : Remark)
  | label (before : Blanks) (n : Label) (after : Blanks)
  | code (before : Blanks) (c : Code) (after : Blanks)

/-! ## Source -/

def Operand.text : Operand → Text
  | .atom a => a.text
  | .address n => n.text
  | .distance n => '.' :: n.text

def Code.text : Code → Text
  | .alone i _ => i.mnemonic
  | .applied i _ _ first rest =>
    i.mnemonic ++ ' ' :: ObjectCode.operandText (first.text :: rest.map Operand.text)

/-- The statement that defines a label. -/
def Label.definition (n : Label) : Text :=
  "define ".toList ++ (n.text ++ " .".toList)

def Line.text : Line → Text
  | .remark r => r.text
  | .label before n after => before.text ++ (n.definition ++ after.text)
  | .code before c after => before.text ++ (c.text ++ after.text)

/-! ## Object code -/

def Line.defines (n : Label) : Line → Bool
  | .label _ m _ => m.text == n.text
  | _ => false

def Line.code? : Line → Option Code
  | .code _ c _ => some c
  | _ => none

def codes (ls : List Line) : List Code :=
  ls.filterMap Line.code?

/-- The address of a label: the number of instructions in front of its last definition. -/
def addressOf (ls : List Line) (n : Label) : Nat :=
  (codes (ls.rdropWhile fun l => !l.defines n)).length

/-- What an operand of the instruction with the given index is taken to. -/
def Operand.object (address : Label → Nat) (index : Nat) : Operand → Text
  | .atom a => a.text
  | .address n => Numeral.digits (address n)
  | .distance n => ObjectCode.distanceText (address n - index)

/-- The object code of the instruction with the given index. -/
def Code.object (address : Label → Nat) (index : Nat) : Code → Text
  | .alone i _ => [i.opcode]
  | .applied i _ _ first rest =>
    i.opcode :: ObjectCode.operandText (first.text :: rest.map (Operand.object address index))

def Operand.label? : Operand → Option Label
  | .atom _ => none
  | .address n => some n
  | .distance n => some n

def Code.references : Code → List Label
  | .alone _ _ => []
  | .applied _ _ _ _ rest => rest.filterMap Operand.label?

end Program

/-- Lines that define every label to which they refer. -/
structure Program where
  lines : List Program.Line
  closed : ∀ c ∈ Program.codes lines, ∀ n ∈ c.references, lines.any (·.defines n) = true

namespace Program

def source (p : Program) : Text :=
  ofLines (p.lines.map Line.text)

/-- One line for each instruction. -/
def objectCode (p : Program) : Text :=
  ofLines ((codes p.lines).zipIdx.map fun c => c.1.object (addressOf p.lines) c.2)

/-! ## Characters of the source -/

theorem isWordChar_or_eq_of_isSmall {mark c : Char} (h : isSmall mark c = true) :
    isWordChar c = true ∨ c = mark := by
  rcases Bool.or_eq_true_iff.1 h with h | h
  · exact .inl (isWordChar_of_small h)
  · exact .inr (beq_iff_eq.1 h)

theorem isUpper_of_isSmall {mark c : Char} (hmark : mark.isUpper = false)
    (h : isSmall mark c = true) : c.isUpper = false := by
  rcases Bool.or_eq_true_iff.1 h with h | h
  · exact isUpper_of_small h
  · rwa [beq_iff_eq.1 h]

theorem Label.isWord (n : Label) : IsWord n.text := by
  refine ⟨?_, ?_⟩
  · intro hnil
    have hstart := n.start
    simp [hnil] at hstart
  · intro c hc
    rcases isWordChar_or_eq_of_isSmall (n.chars c hc) with h | rfl
    · exact h
    · decide

/-- The characters of statements. -/
def isCodeChar (c : Char) : Bool :=
  isWordChar c || c == ' ' || c == ',' || c == '.' || c == '\''

theorem isCodeChar_of_isWordChar {c : Char} (h : isWordChar c = true) : isCodeChar c = true := by
  simp [isCodeChar, h]

theorem Atom.isCodeChar_of_mem (a : Atom) {c : Char} (hc : c ∈ a.text) : isCodeChar c = true := by
  rcases isWordChar_or_eq_of_isSmall (a.chars c hc) with h | rfl
  · exact isCodeChar_of_isWordChar h
  · decide

theorem Label.isCodeChar_of_mem (n : Label) {c : Char} (hc : c ∈ n.text) : isCodeChar c = true :=
  isCodeChar_of_isWordChar (n.isWord.2 c hc)

theorem Label.isCodeChar_of_mem_definition (n : Label) {c : Char} (hc : c ∈ n.definition) :
    isCodeChar c = true := by
  have hfixed : ∀ c ∈ "define ".toList ++ " .".toList, isCodeChar c = true :=
    List.all_eq_true.1 (by decide)
  rcases List.mem_append.1 hc with h | h
  · exact hfixed c (List.mem_append_left _ h)
  · rcases List.mem_append.1 h with h | h
    · exact n.isCodeChar_of_mem h
    · exact hfixed c (List.mem_append_right _ h)

theorem Operand.isCodeChar_of_mem (o : Operand) {c : Char} (hc : c ∈ o.text) :
    isCodeChar c = true := by
  cases o with
  | atom a => exact a.isCodeChar_of_mem hc
  | address n => exact n.isCodeChar_of_mem hc
  | distance n =>
    rcases List.mem_cons.1 hc with rfl | hc
    · decide
    · exact n.isCodeChar_of_mem hc

theorem isCodeChar_of_mem_operandText {operands : List Text}
    (h : ∀ o ∈ operands, ∀ c ∈ o, isCodeChar c = true) {c : Char}
    (hc : c ∈ ObjectCode.operandText operands) : isCodeChar c = true := by
  obtain ⟨o, ho, hmem⟩ := List.mem_flatMap.1 hc
  rcases List.mem_append.1 hmem with hmem | hmem
  · exact h o ho c hmem
  · rw [List.mem_singleton.1 hmem]
    decide

theorem Code.isCodeChar_of_mem (code : Code) {c : Char} (hc : c ∈ code.text) :
    isCodeChar c = true := by
  cases code with
  | alone i hi => exact isCodeChar_of_isWordChar ((Instruction.regular_of_mem hi).isWord.2 c hc)
  | applied i hi _ first rest =>
    rcases List.mem_append.1 hc with hc | hc
    · exact isCodeChar_of_isWordChar ((Instruction.regular_of_mem hi).isWord.2 c hc)
    · rcases List.mem_cons.1 hc with rfl | hc
      · decide
      · refine isCodeChar_of_mem_operandText ?_ hc
        intro o ho c hc
        rcases List.mem_cons.1 ho with rfl | ho
        · exact first.isCodeChar_of_mem hc
        · obtain ⟨operand, -, rfl⟩ := List.mem_map.1 ho
          exact operand.isCodeChar_of_mem hc

theorem plain_of_isCodeChar {t : Text} (hne : t ≠ []) (h : ∀ c ∈ t, isCodeChar c = true) :
    Listing.Plain t where
  nonempty := hne
  noComment := fun hmem => by cases h ';' hmem
  noCall := Literal.NoCall.of_no_quote fun hmem => by cases h '"' hmem
  noReference := fun hmem => by cases h '\\' hmem

/-- An instruction starts with its mnemonic, which has no small letters. -/
theorem Code.text_eq_cons (code : Code) :
    ∃ c cs, code.text = c :: cs ∧ isWordChar c = true ∧ c ≠ 'd' := by
  have hmnemonic : ∀ i ∈ Instruction.table, ∃ c cs, i.mnemonic = c :: cs
      ∧ isWordChar c = true ∧ c ≠ 'd' := by
    intro i hi
    -- a capital or a digit, so the statement is never taken for a definition
    have hregular := Instruction.regular_of_mem hi
    obtain ⟨c, cs, hcons⟩ := List.exists_cons_of_ne_nil hregular.isWord.1
    have hmem : c ∈ i.mnemonic := by simp [hcons]
    refine ⟨c, cs, hcons, hregular.isWord.2 c hmem, ?_⟩
    rintro rfl
    cases hregular.capital 'd' hmem
  cases code with
  | alone i hi => exact hmnemonic i hi
  | applied i hi _ first rest =>
    obtain ⟨c, cs, hcons, hc⟩ := hmnemonic i hi
    exact ⟨c, _, by rw [Code.text, hcons, List.cons_append], hc⟩

theorem Label.definition_getLast? (n : Label) : n.definition.getLast? = some '.' := by
  have hend : " .".toList ≠ [] := by decide
  have hne : n.text ++ " .".toList ≠ [] := List.append_ne_nil_of_right_ne_nil _ hend
  unfold Label.definition
  rw [List.getLast?_append_of_ne_nil _ hne, List.getLast?_append_of_ne_nil _ hend]
  decide

theorem operandText_getLast? {operands : List Text} (hne : operands ≠ []) :
    (ObjectCode.operandText operands).getLast? = some ',' := by
  rcases List.eq_nil_or_concat operands with rfl | ⟨front, o, rfl⟩
  · exact absurd rfl hne
  · rw [ObjectCode.operandText, List.concat_eq_append, List.flatMap_append]
    simp

theorem Code.text_getLast? (code : Code) : code.text.getLast?.any isBlank = false := by
  cases code with
  | alone i hi =>
    have hword := (Instruction.regular_of_mem hi).isWord
    rw [Code.text, List.getLast?_eq_some_getLast hword.1]
    exact isBlank_of_isWordChar (hword.2 _ (List.getLast_mem hword.1))
  | applied i _ _ first rest =>
    have hne : ObjectCode.operandText (first.text :: rest.map Operand.text) ≠ [] := by
      simp [ObjectCode.operandText]
    rw [Code.text, List.getLast?_append_of_ne_nil _ (by simp), ← List.singleton_append,
      List.getLast?_append_of_ne_nil _ hne, operandText_getLast? (by simp)]
    decide

/-! ## Addresses line by line -/

variable {done : List Line} {l : Line}

theorem codes_concat : codes (done ++ [l]) = codes done ++ l.code?.toList := by
  rw [codes, List.filterMap_append, codes]
  cases hcode : l.code? with
  | none => simp [hcode]
  | some c => simp [hcode]

theorem codes_concat_of_none (h : l.code? = none) : codes (done ++ [l]) = codes done := by
  rw [codes_concat, h, Option.toList_none, List.append_nil]

theorem length_codes_le (ls : List Line) : (codes ls).length ≤ ls.length :=
  List.length_filterMap_le _ _

theorem addressOf_le (ls : List Line) (n : Label) : addressOf ls n ≤ ls.length := by
  -- a part of the lines is left, and some of them are instructions
  have hshorter := (List.rdropWhile_prefix (fun l : Line => !l.defines n) (l := ls)).length_le
  exact Nat.le_trans (length_codes_le _) hshorter

theorem addressOf_concat_of_defines {n : Label} (h : l.defines n = true) :
    addressOf (done ++ [l]) n = (codes (done ++ [l])).length := by
  rw [addressOf, List.rdropWhile_concat_neg _ _ _ (by simp [h])]

theorem addressOf_concat {n : Label} (h : l.defines n = false) :
    addressOf (done ++ [l]) n = addressOf done n := by
  rw [addressOf, List.rdropWhile_concat_pos _ _ _ (by simp [h]), addressOf]

/-! ## The first pass -/

/-- A table of labels: each name has its mark in front, and each location is a row of digits. -/
structure LabelTable (symbols : SymbolTable) : Prop extends symbols.Numeric where
  marked : ∀ d ∈ symbols.definitions, d.name.head? = some '_'

theorem LabelTable.empty : LabelTable .empty where
  identifier := by simp [SymbolTable.empty]
  digits := by simp [SymbolTable.empty]
  marked := by simp [SymbolTable.empty]

theorem LabelTable.insert {symbols : SymbolTable} (h : LabelTable symbols) (n : Label) (place : Nat)
    (index sourceLine : Int) :
    LabelTable (symbols.insert ⟨n.text, Numeral.digits place, index, sourceLine⟩) where
  toNumeric := h.toNumeric.insert ⟨n.isWord, by rw [n.start]; decide⟩
    fun c hc => Numeral.isDigit_of_mem_digits hc
  marked := by
    intro d hd
    rcases SymbolTable.eq_or_mem_of_mem_insert hd with rfl | hd
    · exact n.start
    · exact h.marked d hd

/-- What the first pass knows after some lines: their instructions, and the addresses of the labels
they define. -/
structure Represents (done : List Line) (p : Listing.Progress) : Prop where
  collector : p.collector = .empty
  statements : List.Forall₂ (fun s c => s.text = c.1.text ∧ s.index = (c.2 : Int))
    p.statements.toList (codes done).zipIdx
  table : LabelTable p.symbols
  labels : ∀ n : Label, done.any (·.defines n) = true →
    p.symbols.get? n.text = some (Numeral.digits (addressOf done n))

theorem represents_start : Represents [] Listing.Progress.start where
  collector := rfl
  statements := .nil
  table := .empty
  labels := by simp

variable {p : Listing.Progress}

theorem Represents.size_eq (h : Represents done p) : p.statements.size = (codes done).length := by
  have hlength := h.statements.length_eq
  rwa [List.length_zipIdx, Array.length_toList] at hlength

/-- A line without a definition keeps the addresses as they are. -/
theorem Represents.labels_concat (h : Represents done p) (hl : ∀ n, l.defines n = false) (n : Label)
    (hn : (done ++ [l]).any (·.defines n) = true) :
    p.symbols.get? n.text = some (Numeral.digits (addressOf (done ++ [l]) n)) := by
  rw [addressOf_concat (hl n)]
  exact h.labels n (by simpa [hl n] using hn)

theorem Represents.remark [Platform] (h : Represents done p) (filename : String) (k : Nat)
    (r : Remark) :
    p.addLine filename k r.text = pure p ∧ Represents (done ++ [.remark r]) p := by
  refine ⟨Listing.addLine_silent r.oneLine r.shape r.noDirective, ?_⟩
  exact
    { collector := h.collector
      statements := by
        rw [codes_concat_of_none rfl]
        exact h.statements
      table := h.table
      labels := h.labels_concat fun _ => rfl }

theorem Code.plain (c : Code) : Listing.Plain c.text := by
  obtain ⟨x, xs, hcons, -⟩ := c.text_eq_cons
  exact plain_of_isCodeChar (by simp [hcons]) fun _ => c.isCodeChar_of_mem

theorem Code.trim_line (c : Code) (before after : Blanks) :
    trim (Line.code before c after).text = c.text := by
  obtain ⟨x, xs, hcons, hword, -⟩ := c.text_eq_cons
  exact trim_surround before.blank after.blank (by simp [hcons])
    (by simp [hcons, isBlank_of_isWordChar hword]) c.text_getLast?

theorem Represents.code [Platform] (h : Represents done p) (filename : String) (k : Nat)
    (before : Blanks)
    (c : Code) (after : Blanks) :
    ∃ p', p.addLine filename k (Line.code before c after).text = pure p'
      ∧ Represents (done ++ [.code before c after]) p' := by
  obtain ⟨x, xs, hcons, -, hd⟩ := c.text_eq_cons
  -- the line has nothing but the statement in it, which is no definition
  refine ⟨{ p with statements := p.statements.push ⟨c.text, p.statements.size, k⟩ }, ?_, ?_⟩
  · rw [Listing.addLine_plain (c.trim_line before after) c.plain, hcons]
    exact Listing.addStatement_of_ne hd
  · exact
      { collector := h.collector
        statements := by
          rw [codes_concat, Line.code?, Option.toList_some, List.zipIdx_append, Array.toList_push]
          refine List.rel_append h.statements (.cons ⟨rfl, ?_⟩ .nil)
          simp [h.size_eq]
        table := h.table
        labels := h.labels_concat fun _ => rfl }

/-- A definition gives its own label the place of the next instruction. -/
theorem Represents.labels_define (h : Represents done p) (before : Blanks) (n : Label)
    (after : Blanks) (sourceLine : Int) (m : Label)
    (hm : (done ++ [Line.label before n after]).any (·.defines m) = true) :
    (p.symbols.insert
        ⟨n.text, Numeral.digits p.statements.size, p.statements.size, sourceLine⟩).get? m.text
      = some (Numeral.digits (addressOf (done ++ [.label before n after]) m)) := by
  by_cases hname : n.text = m.text
  · have hdefines : (Line.label before n after).defines m = true := by simp [Line.defines, hname]
    rw [addressOf_concat_of_defines hdefines, codes_concat_of_none rfl, ← h.size_eq, ← hname,
      SymbolTable.get?_insert_self]
  · -- other labels are found where they were before
    have hdefines : (Line.label before n after).defines m = false := by simp [Line.defines, hname]
    rw [addressOf_concat hdefines, SymbolTable.get?_insert_of_ne _ _ (Ne.symm hname)]
    exact h.labels m (by simpa [hdefines] using hm)

theorem Label.plain_definition (n : Label) : Listing.Plain n.definition :=
  plain_of_isCodeChar (List.cons_ne_nil _ _) fun _ => n.isCodeChar_of_mem_definition

theorem Label.trim_definition (n : Label) (before after : Blanks) :
    trim (Line.label before n after).text = n.definition := by
  have hhead : n.definition.head? = some 'd' := rfl
  refine trim_surround before.blank after.blank (List.cons_ne_nil _ _) ?_ ?_
  · rw [hhead]
    decide
  · rw [n.definition_getLast?]
    decide

theorem Represents.label [Platform] (h : Represents done p)
    (hsize : done.length < 10 ^ Limit.digits)
    (filename : String) (k : Nat) (before : Blanks) (n : Label) (after : Blanks) :
    ∃ p', (p.addLine filename k (Line.label before n after).text).result = .ok p'
      ∧ Represents (done ++ [.label before n after]) p' := by
  have hplace : p.statements.size < 10 ^ Limit.digits := by
    rw [h.size_eq]
    exact Nat.lt_of_le_of_lt (length_codes_le done) hsize
  refine ⟨⟨p.symbols.insert ⟨n.text, Numeral.digits p.statements.size, p.statements.size, k⟩,
    p.collector, p.statements⟩, ?_, ?_⟩
  · rw [Listing.addLine_plain (n.trim_definition before after) n.plain_definition]
    exact Listing.addStatement_label n.isWord hplace
  · exact
      { collector := h.collector
        statements := by
          rw [codes_concat_of_none rfl]
          exact h.statements
        table := h.table.insert n _ _ _
        labels := h.labels_define before n after k }

/-- One line of a program is taken in. -/
theorem Represents.step [Platform] (h : Represents done p) (hsize : done.length < 10 ^ Limit.digits)
    (filename : String) (k : Nat) (l : Line) :
    ∃ p', (p.addLine filename k l.text).result = .ok p' ∧ Represents (done ++ [l]) p' := by
  cases l with
  | remark r =>
    obtain ⟨hline, hrepresents⟩ := h.remark filename k r
    exact ⟨p, by rw [Line.text, hline, Logged.result_pure], hrepresents⟩
  | label before n after => exact h.label hsize filename k before n after
  | code before c after =>
    obtain ⟨p', hline, hrepresents⟩ := h.code filename k before c after
    exact ⟨p', by rw [hline, Logged.result_pure], hrepresents⟩

/-- There are no selectors in a program. -/
theorem Line.hashed_text (l : Line) : Listing.hashed l.text = [] := by
  cases l with
  | remark r => exact Listing.hashed_silent r.oneLine r.shape
  | label before n after =>
    exact Listing.hashed_plain (n.trim_definition before after) n.plain_definition
  | code before c after => exact Listing.hashed_plain (c.trim_line before after) c.plain

/-- All lines of a program are taken in, one after the other. -/
theorem Represents.run [Platform] {rest : List Line} (h : Represents done p) (filename : String)
    (k : Nat)
    (hsize : (done ++ rest).length < 10 ^ Limit.digits) :
    ∃ p', (p.addLines filename k (rest.map Line.text)).result = .ok p'
      ∧ Represents (done ++ rest) p' := by
  -- on the lines still to come; the ones behind are those that the invariant speaks of
  induction rest generalizing done p k with
  | nil => exact ⟨p, rfl, by rwa [List.append_nil]⟩
  | cons l rest ih =>
    have hdone : done.length < 10 ^ Limit.digits := by
      rw [List.length_append] at hsize
      omega
    obtain ⟨p₁, hline, h₁⟩ := h.step hdone filename k l
    obtain ⟨p₂, hlines, h₂⟩ := ih h₁ (k + 1) (by simpa using hsize)
    refine ⟨p₂, ?_, by simpa using h₂⟩
    rw [List.map_cons, Listing.addLines_cons_eq_ok_iff]
    exact ⟨Listing.checkLine_of_hashed_eq_nil l.hashed_text, p₁, hline, hlines⟩

end Program

end ContractAsm
