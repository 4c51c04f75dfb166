-- SUMMARY: A check of the syntax of a source, line by line.
import ContractAsm.Log
import ContractAsm.Variable

/-!
# Checking the syntax of a source

The check looks at each line by itself, without assembling: every backslash starts a reference to a
variable, quotes come in pairs, and there are as many opening as closing parentheses. Blank lines
and comments are not looked at.
-/

namespace ContractAsm.Lint

/-- What the check finds in a line. -/
inductive Problem where
  | variableSyntax
  | quotes
  | parentheses
  deriving DecidableEq, Repr

def Problem.message : Problem → String
  | .variableSyntax => "Invalid variable syntax"
  | .quotes => "Unmatched quotes"
  | .parentheses => "Unmatched parentheses"

/-- Some backslash of a text starts no reference to a variable. -/
def hasInvalidReference : Text → Bool
  | [] => false
  | c :: cs =>
    (c == '\\' && (Variable.reference none (c :: cs)).isNone) || hasInvalidReference cs

def problems (line : Text) : List Problem :=
  if line.isEmpty || line.head? == some ';' then []
  else
    (if hasInvalidReference line then [.variableSyntax] else [])
    ++ (if line.count '"' % 2 != 0 then [.quotes] else [])
    ++ (if line.count '(' != line.count ')' then [.parentheses] else [])

/-- A problem with the number of its line. -/
structure Finding where
  line : Nat
  problem : Problem
  deriving DecidableEq, Repr

def Finding.message (f : Finding) : String :=
  s!"Line {f.line}: {f.problem.message}"

def checkLines (number : Nat) : List Text → List Finding
  | [] => []
  | raw :: rest => (problems (Text.trim raw)).map (⟨number, ·⟩) ++ checkLines (number + 1) rest

def check (source : Text) : List Finding :=
  checkLines 1 (Text.lines source)

/-- The report about findings; there is none without any. -/
def report (findings : List Finding) : List LogEntry :=
  if findings.isEmpty then [] else [⟨.debug, s!"Validation found {findings.length} problems"⟩]

end ContractAsm.Lint
