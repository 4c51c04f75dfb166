-- SUMMARY: Integers as decimal text, in the digits of any script.
import ContractAsm.Limit
import ContractAsm.Text.Basic
import ContractAsm.Text.DecimalDigit

/-!
# Decimal numerals

Integers as decimal text. Reading and writing keep to `Limit.digits`; the sign is no digit, and
leading zeros are.
-/

namespace ContractAsm.Numeral

/-! ## Reading -/

/-- The value of a row of ASCII digits. -/
def value (digits : Text) : Nat :=
  Nat.ofDigitChars 10 digits 0

/-- Reads a row of ASCII digits. -/
def read (digits : Text) : Except Limit Nat :=
  if digits.length ≤ Limit.digits then .ok (value digits) else .error (.numeral digits.length)

def splitSign : Text → Bool × Text
  | '-' :: rest => (true, rest)
  | '+' :: rest => (false, rest)
  | rest => (false, rest)

def signed (negative : Bool) (n : Nat) : Int :=
  if negative then -n else n

/-- Reads the integer that a text starts with, behind ASCII blanks; what follows it is ignored.
There is none if no digit follows the blanks and the sign. -/
def readLeading (t : Text) : Except Limit (Option Int) :=
  let (negative, rest) := splitSign (t.dropWhile Text.isAsciiBlank)
  match rest.takeWhile Char.isDigit with
  | [] => .ok none
  | digits => (read digits).map fun n => some (signed negative n)

/-! ## Writing -/

def digits (n : Nat) : Text :=
  Nat.toDigits 10 n

def decimal (n : Int) : Text :=
  if n < 0 then '-' :: digits n.natAbs else digits n.natAbs

/-- Writes an integer, unless it has too many digits. -/
def write (n : Int) : Except Limit Text :=
  if (digits n.natAbs).length ≤ Limit.digits then .ok (decimal n) else .error .integer

/-- The value of the digits of a number is that number. -/
theorem value_digits (n : Nat) : value (digits n) = n :=
  Nat.ofDigitChars_toDigits (by decide) (by decide)

/-! ## Integers in settings

A setting takes an integer in a wider form: blanks around it, a sign, decimal digits of any script,
and single underscores between digits. -/

/-- Brings blanks and digits from outside of ASCII into it; any other character from there has no
place in an integer. -/
def toAscii? (c : Char) : Option Char :=
  if c.toNat < 0x7F then some c
  else if Text.isBlank c then some ' '
  else (Text.digitValue? c).map fun d => Char.ofNat ('0'.toNat + d)

/-- Drops single underscores between digits; `none` if anything but digits remains. -/
def joinGroups : Text → Option Text
  | [] => none
  | [d] => if d.isDigit then some [d] else none
  | d :: '_' :: rest => if d.isDigit then (joinGroups rest).map (d :: ·) else none
  | d :: rest => if d.isDigit then (joinGroups rest).map (d :: ·) else none

/-- Reads an integer as it is written in a setting. -/
def ofSetting? (t : Text) : Option Int := do
  let t ← t.mapM toAscii?
  let t := t.dropWhile Text.isAsciiBlank
  let t := (t.reverse.dropWhile Text.isAsciiBlank).reverse
  let (negative, rest) := splitSign t
  let digits ← joinGroups rest
  match read digits with
  | .ok n => some (signed negative n)
  | .error _ => none

end ContractAsm.Numeral
