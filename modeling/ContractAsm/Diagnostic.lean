-- SUMMARY: Diagnostics of faults in a source, and the failures of an assembly.
import ContractAsm.Limit
import ContractAsm.Log
import ContractAsm.Text.Half
import ContractAsm.Text.Width

/-!
# Diagnostics

A fault in the source is shown as a message with its location, followed by the line it was found
in with a mark under the column, and a hint.
-/

namespace ContractAsm

/-- A place in a source file. Lines and columns count from 1. -/
structure Location where
  filename : String
  line : Int
  column : Int
  deriving DecidableEq, Repr

def Location.toText (l : Location) : String :=
  s!"{l.filename}:{l.line}:{l.column}"

/-- A fault in the source. -/
structure Diagnostic where
  message : String
  location : Option Location
  hint : Option String
  sourceLine : Option String
  deriving DecidableEq, Repr

namespace Diagnostic

/-- The line that names the fault. -/
def headline (d : Diagnostic) : String :=
  match d.location with
  | some l => s!"{l.toText}: error: {d.message}"
  | none => s!"error: {d.message}"

/-- The width of the space in front of a mark under a column. The line is shown four columns in, and
columns before the first have no mark. -/
def caretWidth? (column : Int) : Option Nat :=
  if 0 < column then some (column + 3).toNat else none

/-- The line with a mark behind a space. -/
def caret (width : Nat) : String :=
  String.ofList (Text.spaces width ++ ['^'])

/-- The source line and the width of the space in front of the mark under it. They need both the
line and its location. -/
def excerpt? (d : Diagnostic) : Option (String × Option Nat) :=
  match d.sourceLine, d.location with
  | some line, some l => some (line, caretWidth? l.column)
  | _, _ => none

def excerptLines (d : Diagnostic) : List String :=
  match d.excerpt? with
  | some (line, width) => s!"    {line}" :: (width.map caret).toList
  | none => []

/-- The hint; an empty one is not shown. -/
def hintLine (d : Diagnostic) : List String :=
  match d.hint with
  | some hint => if hint = "" then [] else [s!"hint: {hint}"]
  | none => []

def render (d : Diagnostic) : String :=
  "\n".intercalate (d.headline :: d.excerptLines ++ d.hintLine)

/-- The text of a diagnostic whose column may be of any size. There is none if the space in front of
the mark cannot be made. -/
def renderChecked [Platform] (d : Diagnostic) : Except WidthFault String := do
  if let some (_, some width) := d.excerpt? then
    let _ ← Text.checkWidth width
  return d.render

end Diagnostic

/-- A reference to a variable that no region in scope declares. -/
structure UndefinedVariable where
  token : Text
  location : Option Location
  sourceLine : Option String
  searched : List String
  deriving DecidableEq, Repr

namespace UndefinedVariable

def message (u : UndefinedVariable) : String :=
  s!"invalid variable reference '{String.ofList u.token}'"

def hint (u : UndefinedVariable) : String :=
  if u.searched.isEmpty then "no debug region declares variables at this point"
  else "searched scopes: " ++ ", ".intercalate u.searched

def diagnostic (u : UndefinedVariable) : Diagnostic where
  message := u.message
  location := u.location
  hint := some u.hint
  sourceLine := u.sourceLine

end UndefinedVariable

/-- Why an assembly fails: through a fault of the source, at a limit of conversion, or because a
text has no bytes. -/
inductive Failure where
  | undefinedVariable (u : UndefinedVariable)
  | limit (l : Limit)
  | encoding (f : EncodeFault)
  deriving DecidableEq, Repr

def Failure.message : Failure → String
  | .undefinedVariable u => u.diagnostic.render
  | .limit l => l.message
  | .encoding f => f.message

/-- A conversion inside of a logged computation. -/
def Logged.ofConversion (x : Except Limit α) : Logged Failure α :=
  .ofExcept (x.mapError .limit)

/-- An encoding inside of a logged computation. -/
def Logged.ofEncoding (x : Except EncodeFault α) : Logged Failure α :=
  .ofExcept (x.mapError .encoding)

end ContractAsm
