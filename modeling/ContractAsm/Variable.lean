-- SUMMARY: Variables that debug regions declare, and references to them.
import ContractAsm.Diagnostic
import ContractAsm.Json.Basic
import ContractAsm.Text.Scan

/-!
# Variables

A statement refers to a variable by a backslash, its name and a comma. The debug region around the
statement declares the variable; failing that, the global region does.
-/

namespace ContractAsm

/-- The variables that a debug region declares: a list of objects that give attributes to names.
The label is the tag of the region. -/
structure Scope where
  label : Json
  entries : List Json

namespace Scope

/-- The attributes of a variable, in the first entry that has its name. -/
def attributes? (s : Scope) (name : Text) : Option Json :=
  s.entries.findSome? fun
    | .object members => Json.find? name members
    | _ => none

/-- The location among the attributes of a variable; an empty one is none. -/
def locationOf? [Platform] : Json → Option Text
  | .object attributes =>
    match Json.find? "loc".toList attributes with
    | none => none
    | some .null => none
    | some (.string []) => none
    | some location => some location.shown
  | _ => none

/-- The location of a variable. -/
def location? [Platform] (s : Scope) (name : Text) : Option Text :=
  (s.attributes? name).bind locationOf?

def describe [Platform] (s : Scope) : String :=
  s!"VariableScope({String.ofList s.label.quoted}, {s.entries.length} entries)"

end Scope

namespace Variable

/-- Recognises a reference, and gives the name of the variable. -/
def reference : Text.Recogniser Text := fun _ t =>
  match t with
  | '\\' :: rest =>
    let name := rest.takeWhile Text.isWordChar
    match name, (rest.drop name.length).head? with
    | _ :: _, some ',' => some (name, name.length + 2)
    | _, _ => none
  | _ => none

/-- A reference as it is written. -/
def token (name : Text) : Text :=
  '\\' :: name ++ [',']

/-- Where references of one line are looked up, and where the line stands. -/
structure Context where
  current : Option Scope
  global : Option Scope
  filename : String
  lineNumber : Int

/-- The scopes to search, in order. -/
def Context.scopes (c : Context) : List Scope :=
  c.current.toList ++ c.global.toList

/-- The scope that gives a location to a variable, and the location. -/
def Context.resolve? [Platform] (c : Context) (name : Text) : Option (Scope × Text) :=
  c.scopes.findSome? fun s => (s.location? name).map (s, ·)

def resolvePieces [Platform] (c : Context) (line : Text) :
    List (Text.Piece Text) → Logged Failure Text
  | [] => pure []
  | .char x :: rest => do
    return x :: (← resolvePieces c line rest)
  | .found start name :: rest =>
    match c.resolve? name with
    | some (scope, location) => do
      Logged.report .debug
        (s!"Resolved variable '{String.ofList name}' -> '{String.ofList location}'"
          ++ s!" ({String.ofList scope.label.shown})")
      return location ++ (← resolvePieces c line rest)
    | none => Logged.fail <| .undefinedVariable
        { token := token name
          location := some ⟨c.filename, c.lineNumber, start + 1⟩
          sourceLine := some (String.ofList line)
          searched := c.scopes.map fun s => String.ofList s.label.quoted }

/-- Replaces every reference of a line by the location of its variable. The first reference
without a location is a failure. -/
def resolve [Platform] (c : Context) (line : Text) : Logged Failure Text :=
  resolvePieces c line (Text.scan reference line)

end Variable

end ContractAsm
