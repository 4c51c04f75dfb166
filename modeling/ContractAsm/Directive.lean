-- SUMMARY: Debug directives: lines with a JSON object, and what its members ask for.
import ContractAsm.Diagnostic
import ContractAsm.Json.Reader

/-!
# Debug directives

A comment line of the form `;#` followed by a JSON object is a directive. What it asks for shows in
its keys.
-/

namespace ContractAsm

/-- What a directive asks for. -/
inductive DirectiveKind where
  | opening
  | closing
  | sourceLine
  | unknown
  deriving DecidableEq, Repr

/-- A directive: its kind and the members of its object. -/
structure Directive where
  kind : DirectiveKind
  payload : List (Text × Json)

/-- What makes a line no directive. -/
inductive DirectiveFault where
  | malformed (f : Json.Fault)
  | notObject
  deriving DecidableEq, Repr

namespace DirectiveFault

def message : DirectiveFault → String
  | .malformed f => s!"malformed debug directive: {f.message}"
  | .notObject => "debug directive is not a JSON object"

def diagnostic (f : DirectiveFault) (line : Text) (location : Option Location) : Diagnostic where
  message := f.message
  location := location
  hint := none
  sourceLine := some (String.ofList line)

end DirectiveFault

namespace Directive

/-- A line that is taken for a directive: behind `;#` there is an opening brace, and a closing one
on the same line that does not follow at once. -/
def isDirective : Text → Bool
  | ';' :: '#' :: '{' :: rest =>
    let inner := rest.takeWhile fun c => c != '}' && c != '\n'
    !inner.isEmpty && (rest.drop inner.length).head? == some '}'
  | _ => false

/-- The kind of an object, by its keys. -/
def kindOf (payload : List (Text × Json)) : DirectiveKind :=
  if (Json.find? "code".toList payload).isSome then .opening
  else if (Json.find? "endcode".toList payload).isSome then .closing
  else if (Json.find? "srcline".toList payload).isSome then .sourceLine
  else .unknown

/-- Decodes the text behind the first two characters of a line. The outer failure is a limit. -/
def decode [Platform] (line : Text) : Except Limit (Except DirectiveFault Directive) :=
  match Json.read (line.drop 2) with
  | .ok (.object payload) => .ok (.ok ⟨kindOf payload, payload⟩)
  | .ok _ => .ok (.error .notObject)
  | .error (.fault f) => .ok (.error (.malformed f))
  | .error (.limit l) => .error l

/-! ## What the members of a directive say -/

/-- The tag of the region that a directive opens. -/
def tag (d : Directive) : Json :=
  (Json.find? "code".toList d.payload).getD .null

def declared (d : Directive) : List Json :=
  match Json.find? "vars".toList d.payload with
  | some (.array entries) => entries
  | _ => []

/-- The line of the compiled source that a directive marks. -/
def markedLine (d : Directive) : Json :=
  (Json.find? "srcline".toList d.payload).getD .null

end Directive

end ContractAsm
