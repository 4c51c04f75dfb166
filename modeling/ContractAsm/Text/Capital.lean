-- SUMMARY: ASCII names without regard to letter case.
import ContractAsm.Text.Basic

/-!
# Letter case of ASCII names

Names of instructions and settings are ASCII and are compared without regard to case. A name is
folded by the full case mapping, under which some characters outside of ASCII, ligatures among
them, become ASCII letters. All other characters outside of ASCII stay outside of it and are kept.
-/

namespace ContractAsm.Text

/-- The capital form of a character, where it lies in ASCII. -/
def capital (c : Char) : Text :=
  match c.toNat with
  | 0xDF => ['S', 'S']
  | 0x131 => ['I']
  | 0x17F => ['S']
  | 0xFB00 => ['F', 'F']
  | 0xFB01 => ['F', 'I']
  | 0xFB02 => ['F', 'L']
  | 0xFB03 => ['F', 'F', 'I']
  | 0xFB04 => ['F', 'F', 'L']
  | 0xFB05 => ['S', 'T']
  | 0xFB06 => ['S', 'T']
  | _ => [c.toUpper]

/-- A name in capitals. -/
def toCapitals (t : Text) : Text :=
  t.flatMap capital

/-- A name in small letters; the Kelvin sign is the one character that comes into ASCII. -/
def toSmall (t : Text) : Text :=
  t.map fun c => if c.toNat = 0x212A then 'k' else c.toLower

end ContractAsm.Text
