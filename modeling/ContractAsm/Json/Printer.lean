-- SUMMARY: A printer for JSON values.
import ContractAsm.Json.Basic
import ContractAsm.Text.Units

/-!
# Printing JSON

Values are printed in ASCII over several lines, each level of containers two columns further in.
Empty containers stay on one line.
-/

namespace ContractAsm.Json

/-- A character between the quotes of a string. -/
def printChar [Platform] (c : Char) : Text :=
  match c with
  | '"' => "\\\"".toList
  | '\\' => "\\\\".toList
  | '\n' => "\\n".toList
  | '\r' => "\\r".toList
  | '\t' => "\\t".toList
  | '\x0C' => "\\f".toList
  | '\x08' => "\\b".toList
  | c =>
    if ' ' ≤ c ∧ c ≤ '~' then [c]
    else (Text.charUnits c).flatMap fun u => '\\' :: 'u' :: Text.hexPadded 4 u

def printString [Platform] (s : Text) : Text :=
  '"' :: s.flatMap printChar ++ ['"']

/-- A floating-point number; the names of those that are not finite are capitalised words. -/
def printFloat : Binary64 → Text
  | .nan => "NaN".toList
  | .infinite negative => (if negative then "-Infinity" else "Infinity").toList
  | x => x.toText

/-- A new line at a level of containers. -/
def newline (level : Nat) : Text :=
  '\n' :: List.replicate (2 * level) ' '

mutual

/-- A value at a level of containers. -/
def printAt [Platform] (level : Nat) : Json → Except Limit Text
  | .null => .ok "null".toList
  | .bool b => .ok (if b then "true" else "false").toList
  | .int n => Numeral.write n
  | .float x => .ok (printFloat x)
  | .string s => .ok (printString s)
  | .array [] => .ok "[]".toList
  | .array (x :: xs) => do
    let items ← printItems (level + 1) (x :: xs)
    return '[' :: items ++ newline level ++ [']']
  | .object [] => .ok ['{', '}']
  | .object (m :: ms) => do
    let members ← printMembers (level + 1) (m :: ms)
    return '{' :: members ++ newline level ++ ['}']

/-- The items of an array, each on a line of its own. -/
def printItems [Platform] (level : Nat) : List Json → Except Limit Text
  | [] => .ok []
  | [x] => do
    let item ← printAt level x
    return newline level ++ item
  | x :: xs => do
    let item ← printAt level x
    let rest ← printItems level xs
    return newline level ++ item ++ ',' :: rest

/-- The members of an object, each on a line of its own. -/
def printMembers [Platform] (level : Nat) : List (Text × Json) → Except Limit Text
  | [] => .ok []
  | [(k, x)] => do
    let value ← printAt level x
    return newline level ++ printString k ++ ": ".toList ++ value
  | (k, x) :: xs => do
    let value ← printAt level x
    let rest ← printMembers level xs
    return newline level ++ printString k ++ ": ".toList ++ value ++ ',' :: rest

end

def print [Platform] (v : Json) : Except Limit Text :=
  printAt 0 v

end ContractAsm.Json
