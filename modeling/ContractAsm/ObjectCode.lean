-- SUMMARY: The object code of a listing, statement by statement.
import ContractAsm.Instruction
import ContractAsm.Listing

/-!
# Object code

The object code of a listing has one line for each statement. In it every instruction is one
character, strings are digits, names are replaced by their locations, and an address behind a point
is the distance to it.
-/

namespace ContractAsm.ObjectCode

/-! ## Distances -/

/-- The distance from a statement to a target; a negative one is marked by `n`. -/
def encodeDistance (target current : Int) : Except Limit Text := do
  let distance := target - current
  let digits ← Numeral.write distance.natAbs
  return if distance < 0 then 'n' :: digits else digits

/-- Recognises an address behind a point, and gives its digits. -/
def address : Text.Recogniser Text := fun _ t =>
  match t with
  | '.' :: rest =>
    match rest.takeWhile Char.isDigit with
    | [] => none
    | digits => some (digits, digits.length + 1)
  | _ => none

def resolvePieces (current : Int) : List (Text.Piece Text) → Except Limit Text
  | [] => .ok []
  | .char c :: rest => do
    return c :: (← resolvePieces current rest)
  | .found _ digits :: rest => do
    let target ← Numeral.read digits
    let distance ← encodeDistance target current
    return distance ++ (← resolvePieces current rest)

/-- Replaces every address of a line by the distance to it. -/
def resolveAddresses (current : Int) (line : Text) : Except Limit Text :=
  resolvePieces current (Text.scan address line)

/-! ## Statements -/

def encodeStatement [Platform] (symbols : SymbolTable) (s : Statement) : Except Limit Text :=
  let line := Instruction.encode s.text
  let line := Literal.encodeStrings line
  let line := symbols.substitute line
  resolveAddresses s.index line

/-- The object code of the statements one by one; blank ones have none. -/
def encodeStatements [Platform] (symbols : SymbolTable) (statements : List Statement) :
    Except Limit (List Text) :=
  (statements.filter fun s => !(Text.trim s.text).isEmpty).mapM (encodeStatement symbols)

/-- The object code of statements, without blanks around it. -/
def generate [Platform] (symbols : SymbolTable) (statements : List Statement) :
    Logged Failure Text := do
  let lines ← Logged.ofConversion (encodeStatements symbols statements)
  let code := Text.trim (Text.ofLines lines)
  Logged.report .debug s!"Second pass: {lines.length} lines, {code.length} characters"
  return code

end ContractAsm.ObjectCode
