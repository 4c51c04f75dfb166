-- SUMMARY: Hexadecimal text: bytes as pairs of digits.
import ContractAsm.Text.Basic

/-!
# Hexadecimal text

Bytes as pairs of hexadecimal digits. Writing uses small letters; reading takes both cases, and
ASCII blanks between the pairs.
-/

namespace ContractAsm

abbrev Bytes := List UInt8

namespace Text

/-- The hexadecimal digits of a number, in small letters, padded with zeros to a width. -/
def hexPadded (width n : Nat) : Text :=
  let ds := Nat.toDigits 16 n
  List.replicate (width - ds.length) '0' ++ ds

def hexValue? (c : Char) : Option Nat :=
  if c.isDigit then some (c.toNat - '0'.toNat)
  else if 'a' ≤ c ∧ c ≤ 'f' then some (c.toNat - 'a'.toNat + 10)
  else if 'A' ≤ c ∧ c ≤ 'F' then some (c.toNat - 'A'.toNat + 10)
  else none

/-- A hexadecimal digit, as a small letter from ten on. -/
def hexDigit (n : Nat) : Char :=
  if n < 10 then Char.ofNat ('0'.toNat + n) else Char.ofNat ('a'.toNat + (n - 10))

/-- Bytes as pairs of digits. -/
def ofBytes (bytes : Bytes) : Text :=
  bytes.flatMap fun b => [hexDigit (b.toNat / 16), hexDigit (b.toNat % 16)]

/-- The position of a character at which a text is no row of pairs. -/
structure HexFault where
  position : Nat
  deriving DecidableEq, Repr

def HexFault.message (f : HexFault) : String :=
  s!"non-hexadecimal number found in fromhex() arg at position {f.position}"

/-- Reads pairs of digits from a position on. An unpaired digit is reported at what follows it. -/
def readPairs (position : Nat) : Text → Except HexFault Bytes
  | [] => .ok []
  | c :: cs =>
    if isAsciiBlank c then readPairs (position + 1) cs
    else match hexValue? c, cs with
      | none, _ => .error ⟨position⟩
      | some _, [] => .error ⟨position + 1⟩
      | some high, d :: ds =>
        match hexValue? d with
        | none => .error ⟨position + 1⟩
        | some low => (readPairs (position + 2) ds).map (UInt8.ofNat (high * 16 + low) :: ·)

/-- Reads a row of bytes. A character outside of ASCII is reported before any other fault. -/
def toBytes (t : Text) : Except HexFault Bytes :=
  match t.findIdx? (0x7F < ·.toNat) with
  | some position => .error ⟨position⟩
  | none => readPairs 0 t

end Text

end ContractAsm
