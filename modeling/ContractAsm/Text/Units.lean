-- SUMMARY: UTF-16 units of texts.
import ContractAsm.Text.Half

/-!
# UTF-16 units

A character up to U+FFFF is one unit of 16 bits; any other is a pair of surrogates. A lone half is
the unit that it is.
-/

namespace ContractAsm.Text

variable [Platform]

/-- The units of a character. -/
def charUnits (c : Char) : List Nat :=
  match halfUnit? c with
  | some unit => [unit]
  | none =>
    let n := c.toNat
    if n < 0x10000 then [n]
    else [0xD800 + (n - 0x10000) / 0x400, 0xDC00 + (n - 0x10000) % 0x400]

def units (t : Text) : List Nat :=
  t.flatMap charUnits

theorem charUnits_of_lt {c : Char} (h : c.toNat < 0x10000) : charUnits c = [c.toNat] := by
  have hhalf : halfUnit? c = none :=
    halfUnit?_eq_none (isHalf_eq_false (Nat.lt_of_lt_of_le h (by decide)))
  rw [charUnits, hhalf]
  simp only
  rw [if_pos h]

@[simp] theorem units_append (s t : Text) : units (s ++ t) = units s ++ units t :=
  List.flatMap_append

end ContractAsm.Text
