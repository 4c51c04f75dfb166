-- SUMMARY: Layout of a source: which of its lines are indented.
import ContractAsm.Text.Basic

/-!
# Layout of a source

Define statements, labels and comments start in the first column, and instructions are indented.
Every line is trimmed first.
-/

namespace ContractAsm.Layout

/-- The indentation that is used unless another is asked for. -/
def defaultIndent : Text := "  ".toList

/-- A label: a name of ASCII letters, digits and underscores that starts with no digit, and a
colon. -/
def isLabel (line : Text) : Bool :=
  match line.reverse with
  | ':' :: name =>
    name.all Text.isWordChar && (match name.getLast? with
      | some c => !c.isDigit
      | none => false)
  | _ => false

def formatLine (indent line : Text) : Text :=
  let line := Text.trim line
  if "define ".toList.isPrefixOf line || isLabel line then line
  else match line with
    | [] => []
    | c :: _ => if c = ';' then line else indent ++ line

def format (indent source : Text) : Text :=
  Text.ofLines ((Text.lines source).map (formatLine indent))

end ContractAsm.Layout
