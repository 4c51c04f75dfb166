-- SUMMARY: Symbols, their definitions, and their substitution into a line.
import ContractAsm.Diagnostic
import ContractAsm.Number.Numeral
import ContractAsm.Text.Scan

/-!
# Symbols

A define statement gives a name to a text, or to the place of the next statement. The table keeps
the names in the order in which they were first defined; a later definition replaces the earlier one
in its place. In a line, every defined name that stands as a word of its own is replaced by its
text, longer names first.
-/

namespace ContractAsm

/-- A name and what it is replaced by. The statement index counts the statements before the
definition. -/
structure Definition where
  name : Text
  location : Text
  statementIndex : Int
  sourceLine : Int
  deriving DecidableEq, Repr

namespace Definition

/-- Recognises a name that is not empty, with a word boundary at both of its ends. -/
def recognise (name : Text) : Text.Recogniser Unit := fun before t =>
  match name.isPrefixOf? t with
  | none => none
  | some rest =>
    if Text.isBoundary before name.head? && Text.isBoundary name.getLast? rest.head? then
      some ((), name.length)
    else none

/-- Inserts a text at every word boundary. -/
def insertAtBoundaries (inserted : Text) (before : Option Char) : Text → Text
  | [] => if Text.isBoundary before none then inserted else []
  | c :: cs =>
    (if Text.isBoundary before (some c) then inserted else [])
      ++ c :: insertAtBoundaries inserted (some c) cs

/-- Replaces a name by its location. The empty name stands at every word boundary. -/
def substitute (d : Definition) (line : Text) : Text :=
  if d.name = [] then insertAtBoundaries d.location none line
  else Text.replaceAll (recognise d.name) (fun _ => d.location) line

end Definition

/-- The operands of a define statement, if a line is one: the keyword, blanks, and the rest of the
line up to a final line feed. -/
def defineOperands? (line : Text) : Option Text :=
  match "define".toList.isPrefixOf? line with
  | some (c :: rest) =>
    if Text.isBlank c then
      let operands := (Text.splitFinalNewline (rest.dropWhile Text.isBlank)).1
      if '\n' ∈ operands then none else some operands
    else none
  | _ => none

/-- The symbols, in the order of their first definitions. -/
structure SymbolTable where
  definitions : List Definition
  deriving DecidableEq, Repr

namespace SymbolTable

def empty : SymbolTable := ⟨[]⟩

/-! ## Looking up -/

def find? (table : SymbolTable) (name : Text) : Option Definition :=
  table.definitions.find? (·.name == name)

def get? (table : SymbolTable) (name : Text) : Option Text :=
  (table.find? name).map (·.location)

/-- The integer that the location of a name starts with; 0 if there is none. -/
def numericValue (table : SymbolTable) (name : Text) : Logged Failure Int :=
  match table.get? name with
  | none => pure 0
  | some location => do
    match ← Logged.ofConversion (Numeral.readLeading location) with
    | some n => return n
    | none =>
      Logged.report .warning
        s!"symbol '{String.ofList name}' has non-numeric value '{String.ofList location}', using 0"
      return 0

/-- The number of statements before the body of the program, against which the offsets of debug
records are counted. -/
def preambleSize (table : SymbolTable) : Logged Failure Int :=
  table.numericValue "BODY".toList

/-! ## Defining -/

/-- Puts a definition into a list: in the place of its name if that is defined, else at the end. -/
def insertInto (d : Definition) : List Definition → List Definition
  | [] => [d]
  | e :: rest => if e.name = d.name then d :: rest else e :: insertInto d rest

def insert (table : SymbolTable) (d : Definition) : SymbolTable :=
  ⟨insertInto d table.definitions⟩

theorem find?_insert_self (table : SymbolTable) (d : Definition) :
    (table.insert d).find? d.name = some d := by
  obtain ⟨definitions⟩ := table
  induction definitions with
  | nil => simp [insert, insertInto, find?]
  | cons e rest ih =>
    by_cases h : e.name = d.name
    · simp [insert, insertInto, find?, h]
    · simpa [insert, insertInto, find?, h] using ih

theorem find?_insert_of_ne (table : SymbolTable) (d : Definition) {name : Text}
    (h : name ≠ d.name) : (table.insert d).find? name = table.find? name := by
  obtain ⟨definitions⟩ := table
  induction definitions with
  | nil => simp [insert, insertInto, find?, h.symm]
  | cons e rest ih =>
    by_cases he : e.name = d.name
    · simp [insert, insertInto, find?, he, h.symm]
    · by_cases hn : e.name = name
      · subst hn
        simp [insert, insertInto, find?, he]
      · simpa [insert, insertInto, find?, he, hn] using ih

theorem get?_insert_self (table : SymbolTable) (d : Definition) :
    (table.insert d).get? d.name = some d.location := by
  rw [get?, find?_insert_self, Option.map_some]

theorem get?_insert_of_ne (table : SymbolTable) (d : Definition) {name : Text}
    (h : name ≠ d.name) : (table.insert d).get? name = table.get? name := by
  rw [get?, find?_insert_of_ne table d h, get?]

/-- A definition changes the location of its own name only. -/
theorem get?_insert (table : SymbolTable) (d : Definition) (name : Text) :
    (table.insert d).get? name = if name = d.name then some d.location else table.get? name := by
  by_cases h : name = d.name
  · rw [if_pos h, h, get?_insert_self]
  · rw [if_neg h, get?_insert_of_ne table d h]

/-- Adds a definition and reports it if the name was defined before. -/
def define (table : SymbolTable) (d : Definition) : Logged Failure SymbolTable := do
  if let some old := table.get? d.name then
    Logged.report .debug
      (s!"Redefining '{String.ofList d.name}': {String.ofList old}"
        ++ s!" -> {String.ofList d.location}")
  return table.insert d

/-- The definition that a define statement makes: its first part names the symbol and its last
part is the location, where a point stands for the place of the next statement. There is none
without two parts. -/
def definition? (operands : Text) (statementIndex sourceLine : Int) :
    Except Limit (Option Definition) :=
  match operands.splitOn ' ' with
  | name :: part :: parts => do
    let target := (part :: parts).getLast (List.cons_ne_nil part parts)
    let location ← if target = ['.'] then Numeral.write statementIndex else .ok target
    return some ⟨name, location, statementIndex, sourceLine⟩
  | _ => .ok none

def defineStatement (table : SymbolTable) (operands : Text) (statementIndex sourceLine : Int) :
    Logged Failure (SymbolTable × Option Definition) := do
  match ← Logged.ofConversion (definition? operands statementIndex sourceLine) with
  | some d => return (← table.define d, some d)
  | none =>
    Logged.report .warning
      s!"line {sourceLine}: define '{String.ofList operands}' has no target, ignored"
    return (table, none)

/-! ## Substituting -/

/-- Puts a definition in front of the first one whose name is not longer. -/
def insertByLength (d : Definition) : List Definition → List Definition
  | [] => [d]
  | e :: rest =>
    if e.name.length ≤ d.name.length then d :: e :: rest else e :: insertByLength d rest

/-- The definitions by decreasing length of their names; names of one length stay in order. -/
def byLength (table : SymbolTable) : List Definition :=
  table.definitions.foldr insertByLength []

/-- Replaces every defined name of a line by its location, longer names first. -/
def substitute (table : SymbolTable) (line : Text) : Text :=
  table.byLength.foldl (fun line d => d.substitute line) line

end SymbolTable

end ContractAsm
