-- SUMMARY: UTF-8, with the faults of byte sequences that stand for no text.
import ContractAsm.Text.Hex

/-!
# UTF-8

Encoding of texts and strict decoding. Decoding refuses overlong forms, surrogates, code points
above U+10FFFF and truncated sequences, and says where the fault is and how many bytes belong to it:
the longest start of a sequence that could have been completed.
-/

namespace ContractAsm.Utf8

def encode (t : Text) : Bytes :=
  t.flatMap String.utf8EncodeChar

/-- Why a byte sequence stands for no character. -/
inductive Reason where
  | invalidStart
  | invalidContinuation
  | unexpectedEnd
  deriving DecidableEq, Repr

def Reason.message : Reason → String
  | .invalidStart => "invalid start byte"
  | .invalidContinuation => "invalid continuation byte"
  | .unexpectedEnd => "unexpected end of data"

/-- A refused sequence: its first byte, its position and its length. -/
structure Fault where
  byte : UInt8
  position : Nat
  length : Nat
  reason : Reason
  deriving DecidableEq, Repr

/-- The text shown for a refused sequence. A single byte is shown by its value. -/
def Fault.message (f : Fault) : String :=
  if f.length = 1 then
    s!"'utf-8' codec can't decode byte 0x{String.ofList (Text.ofBytes [f.byte])}"
      ++ s!" in position {f.position}: {f.reason.message}"
  else
    s!"'utf-8' codec can't decode bytes in position {f.position}-{f.position + f.length - 1}: "
      ++ f.reason.message

/-- The bytes that continue a sequence. -/
def isContinuation (b : UInt8) : Bool :=
  0x80 ≤ b && b ≤ 0xBF

/-- The bytes that may follow the first byte of a sequence of three. -/
def isSecondOfThree (first b : UInt8) : Bool :=
  isContinuation b && (first != 0xE0 || 0xA0 ≤ b) && (first != 0xED || b ≤ 0x9F)

/-- The bytes that may follow the first byte of a sequence of four. -/
def isSecondOfFour (first b : UInt8) : Bool :=
  isContinuation b && (first != 0xF0 || 0x90 ≤ b) && (first != 0xF4 || b ≤ 0x8F)

/-- The bits that a continuation byte carries. -/
def payload (b : UInt8) : Nat :=
  b.toNat % 0x40

/-- Decodes bytes from a position on. -/
def decodeFrom (position : Nat) : Bytes → Except Fault Text
  | [] => .ok []
  | a :: rest =>
    let refuse (length : Nat) (reason : Reason) : Except Fault Text :=
      .error ⟨a, position, length, reason⟩
    if a < 0x80 then
      (decodeFrom (position + 1) rest).map (Char.ofNat a.toNat :: ·)
    else if a < 0xC2 then refuse 1 .invalidStart
    else if a < 0xE0 then
      match rest with
      | [] => refuse 1 .unexpectedEnd
      | b :: rest =>
        if isContinuation b then
          (decodeFrom (position + 2) rest).map (Char.ofNat (a.toNat % 0x20 * 0x40 + payload b) :: ·)
        else refuse 1 .invalidContinuation
    else if a < 0xF0 then
      match rest with
      | [] => refuse 1 .unexpectedEnd
      | b :: rest =>
        if isSecondOfThree a b then
          match rest with
          | [] => refuse 2 .unexpectedEnd
          | c :: rest =>
            if isContinuation c then
              (decodeFrom (position + 3) rest).map
                (Char.ofNat ((a.toNat % 0x10 * 0x40 + payload b) * 0x40 + payload c) :: ·)
            else refuse 2 .invalidContinuation
        else refuse 1 .invalidContinuation
    else if a < 0xF5 then
      match rest with
      | [] => refuse 1 .unexpectedEnd
      | b :: rest =>
        if isSecondOfFour a b then
          match rest with
          | [] => refuse 2 .unexpectedEnd
          | c :: rest =>
            if isContinuation c then
              match rest with
              | [] => refuse 3 .unexpectedEnd
              | d :: rest =>
                if isContinuation d then
                  (decodeFrom (position + 4) rest).map
                    (Char.ofNat (((a.toNat % 0x08 * 0x40 + payload b) * 0x40 + payload c) * 0x40
                      + payload d) :: ·)
                else refuse 3 .invalidContinuation
            else refuse 2 .invalidContinuation
        else refuse 1 .invalidContinuation
    else refuse 1 .invalidStart

def decode (bytes : Bytes) : Except Fault Text :=
  decodeFrom 0 bytes

end ContractAsm.Utf8
