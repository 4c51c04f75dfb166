-- SUMMARY: Lone halves of surrogate pairs in texts, and texts that have no bytes because of them.
import ContractAsm.Platform

/-!
# Lone halves

A character above U+FFFF is a pair of surrogates in UTF-16. One half of such a pair alone is no
character and has no bytes in UTF-8. In a text it is carried by the character that the platform sets
aside for it.
-/

namespace ContractAsm

namespace Text

section

variable [Platform]

/-- The character that stands for a half. -/
def half (unit : Nat) : Char :=
  Char.ofNat (Platform.halves.first + (unit - 0xD800))

/-- The half that a character stands for. -/
def halfUnit? (c : Char) : Option Nat :=
  let first := Platform.halves.first
  if first ≤ c.toNat ∧ c.toNat < first + 0x800 then some (0xD800 + (c.toNat - first)) else none

def isHalf (c : Char) : Bool :=
  (halfUnit? c).isSome

theorem isHalf_iff {c : Char} : isHalf c = true
    ↔ Platform.halves.first ≤ c.toNat ∧ c.toNat < Platform.halves.first + 0x800 := by
  simp [isHalf, halfUnit?]

/-- Halves stand far behind all characters that mean something to the assembler. -/
theorem isHalf_eq_false {c : Char} (h : c.toNat < 0xF0000) : isHalf c = false := by
  have hfirst := Platform.halves.isPrivate
  rw [Bool.eq_false_iff, ne_eq, isHalf_iff]
  omega

theorem halfUnit?_eq_none {c : Char} (h : isHalf c = false) : halfUnit? c = none := by
  simpa [isHalf] using h

theorem toNat_half {unit : Nat} (hupper : unit ≤ 0xDFFF) :
    (half unit).toNat = Platform.halves.first + (unit - 0xD800) := by
  have hfirst := Platform.halves.isPrivate
  have hlast := Platform.halves.isInRange
  have hvalid : (Platform.halves.first + (unit - 0xD800)).isValidChar := by
    right
    omega
  rw [half, Char.ofNat, dif_pos hvalid]
  rfl

/-- A half is known again by the character that stands for it. -/
theorem halfUnit?_half {unit : Nat} (hlower : 0xD800 ≤ unit) (hupper : unit ≤ 0xDFFF) :
    halfUnit? (half unit) = some unit := by
  unfold halfUnit?
  rw [toNat_half hupper]
  simp only
  rw [if_pos (by omega), Nat.add_sub_cancel_left, Nat.add_sub_cancel' hlower]

end

/-! ## Escapes by code -/

/-- A code as an escape of two, four or eight digits. -/
def escapeCode (code : Nat) : Text :=
  if code < 0x100 then '\\' :: 'x' :: hexPadded 2 code
  else if code < 0x10000 then '\\' :: 'u' :: hexPadded 4 code
  else '\\' :: 'U' :: hexPadded 8 code

/-- The code of a character; that of a half is its unit. -/
def code [Platform] (c : Char) : Nat :=
  (halfUnit? c).getD c.toNat

end Text

/-! ## Texts without bytes -/

/-- A row of characters that a character set has no bytes for: the code of the first one, its
position, and the length of the row. -/
structure EncodeFault where
  charset : String
  code : Nat
  position : Nat
  length : Nat
  reason : String
  deriving DecidableEq, Repr

/-- The text shown for a row without bytes. A single character is shown by its code. -/
def EncodeFault.message (f : EncodeFault) : String :=
  if f.length = 1 then
    s!"'{f.charset}' codec can't encode character '{String.ofList (Text.escapeCode f.code)}'"
      ++ s!" in position {f.position}: {f.reason}"
  else
    s!"'{f.charset}' codec can't encode characters in position "
      ++ s!"{f.position}-{f.position + f.length - 1}: {f.reason}"

namespace Text

variable [Platform]

/-- The first row of the characters that a character set lacks. -/
def firstFault (charset reason : String) (lacks : Char → Bool) (t : Text) : EncodeFault where
  charset := charset
  code := ((t.find? lacks).map code).getD 0
  position := (t.takeWhile (!lacks ·)).length
  length := ((t.dropWhile (!lacks ·)).takeWhile lacks).length
  reason := reason

/-- Takes a text, if the character set lacks none of its characters. -/
def checkAgainst (charset reason : String) (lacks : Char → Bool) (t : Text) :
    Except EncodeFault Text :=
  if t.any lacks then .error (firstFault charset reason lacks t) else .ok t

/-- The first row of halves in a text, for which there is nothing in UTF-8. -/
def halfFault (t : Text) : EncodeFault :=
  firstFault "utf-8" "surrogates not allowed" isHalf t

/-- Takes a text for UTF-8, if there is no half in it. -/
def checkHalves (t : Text) : Except EncodeFault Text :=
  checkAgainst "utf-8" "surrogates not allowed" isHalf t

theorem checkHalves_of_any_eq_false {t : Text} (h : t.any isHalf = false) :
    checkHalves t = .ok t := by
  rw [checkHalves, checkAgainst, h, if_neg Bool.false_ne_true]

theorem checkHalves_of_any {t : Text} (h : t.any isHalf = true) :
    checkHalves t = .error (halfFault t) := by
  rw [checkHalves, checkAgainst, if_pos h]
  rfl

end Text

end ContractAsm
