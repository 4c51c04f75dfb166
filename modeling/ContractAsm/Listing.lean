-- SUMMARY: Listings: the numbered statements, the symbols and the debug records of a source.
import ContractAsm.Literal
import ContractAsm.Region

/-!
# Listings

A listing is a source with its names collected and its statements numbered. Comments, directives and
definitions are gone from it, selectors are expanded, and references to variables are replaced by
their locations.
-/

namespace ContractAsm

/-- A numbered statement and the line of the source it comes from. -/
structure Statement where
  text : Text
  index : Int
  sourceLine : Nat
  deriving DecidableEq, Repr

structure Listing where
  statements : List Statement
  symbols : SymbolTable
  records : List Region

namespace Listing

/-- Removes a comment and the blanks in front of it. In a text of several lines only the last one
can end in a comment; a final line feed is kept. -/
def stripComment (line : Text) : Text :=
  let (body, final) := Text.splitFinalNewline line
  let last := (body.reverse.takeWhile (· != '\n')).reverse
  if ';' ∈ last then
    let before := body.take (body.length - last.length) ++ last.takeWhile (· != ';')
    Text.trimEnd before ++ final
  else line

/-- What the selectors of a line hash; in a directive there are none. -/
def hashed (raw : Text) : List Text :=
  let line := Text.trim raw
  if Directive.isDirective line then [] else Literal.selectorArguments (stripComment line)

/-- A listing in the making. -/
structure Progress where
  symbols : SymbolTable
  collector : Collector
  statements : Array Statement

def Progress.start : Progress := ⟨.empty, .empty, #[]⟩

/-- Where the references of a line are looked up. -/
def Progress.context (p : Progress) (filename : String) (lineNumber : Nat) : Variable.Context where
  current := p.collector.current?.map (·.scope)
  global := p.collector.global?.map (·.scope)
  filename := filename
  lineNumber := lineNumber

section

variable [Platform]

def Progress.addDirective (p : Progress) (lineNumber : Nat) (line : Text) :
    Logged Failure Progress := do
  let (collector, outcome) := p.collector.consume p.symbols line p.statements.size lineNumber
  outcome
  return { p with collector }

/-- Adds a define statement or any other statement. -/
def Progress.addStatement (p : Progress) (lineNumber : Nat) (text : Text) :
    Logged Failure Progress :=
  match defineOperands? text with
  | some operands => do
    let (symbols, _) ← p.symbols.defineStatement operands p.statements.size lineNumber
    return { p with symbols }
  | none =>
    pure { p with statements := p.statements.push ⟨text, p.statements.size, lineNumber⟩ }

def Progress.addLine (filename : String) (p : Progress) (lineNumber : Nat) (raw : Text) :
    Logged Failure Progress :=
  let line := Text.trim raw
  if Directive.isDirective line then p.addDirective lineNumber line
  else
    let line := stripComment line
    if line.isEmpty then pure p
    else do
      let text ← Variable.resolve (p.context filename lineNumber) (Literal.expandSelectors line)
      p.addStatement lineNumber text

/-- Checks that the selectors of a line can be hashed. -/
def checkLine (raw : Text) : Except EncodeFault Unit :=
  Literal.checkArguments (hashed raw)

def Progress.addLines (filename : String) (p : Progress) (lineNumber : Nat) :
    List Text → Logged Failure Progress
  | [] => pure p
  | raw :: rest => do
    Logged.ofEncoding (checkLine raw)
    let p ← p.addLine filename lineNumber raw
    p.addLines filename (lineNumber + 1) rest

/-- Completes the debug records. -/
def Progress.finish (p : Progress) : Logged Failure Listing := do
  let (collector, outcome) := p.collector.finish p.symbols
  outcome
  let listing : Listing := ⟨p.statements.toList, p.symbols, collector.records⟩
  Logged.report .debug
    (s!"First pass: {listing.statements.length} statements, "
      ++ s!"{listing.symbols.definitions.length} symbols, "
      ++ s!"{listing.records.length} debug records")
  return listing

def ofSource (filename : String) (source : Text) : Logged Failure Listing := do
  let p ← Progress.start.addLines filename 1 (Text.lines source)
  p.finish

end

end Listing

end ContractAsm
