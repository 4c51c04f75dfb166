-- SUMMARY: What is left to the machine: limits, codecs, and the coding of its files.
import ContractAsm.Text.Charset
import ContractAsm.Text.Hex

/-!
# Platforms

The tools run on a machine that has its own limits, its own codecs and a coding that files are
written in by default. What depends on these takes them from a platform, and what is proved of it
holds on every platform.

A text can hold one half of a surrogate pair alone, for an escape in a directive may name it. There
is no such character, so a platform also sets private-use characters aside to stand for the halves.
A text that uses them itself is not told apart from one with halves in it; it calls for a platform
that sets others aside.
-/

namespace ContractAsm

/-- A block of private-use characters, one for each half of a surrogate pair. -/
structure HalfBlock where
  first : Nat
  isPrivate : 0xF0000 ≤ first
  isInRange : first + 0x800 ≤ 0x110000

/-- Why a codec refuses to convert. -/
inductive CodecFault where
  /-- What is to be converted has no place in the coding. -/
  | contents (message : String)
  /-- There is no such codec, or it does not lead from bytes to text. -/
  | unavailable (message : String)
  deriving DecidableEq, Repr

/-- A way to convert texts to bytes and back. -/
structure Codec where
  decode : Bytes → Except CodecFault Text
  encode : Text → Except CodecFault Bytes

/-- The codec of a coding that the platform does not have. -/
def Codec.missing (name : String) : Codec :=
  let fault : CodecFault := .unavailable s!"unknown encoding: {name}"
  ⟨fun _ => .error fault, fun _ => .error fault⟩

/-- What the machine decides. -/
class Platform where
  /-- The characters that stand for halves. -/
  halves : HalfBlock
  /-- The greatest depth of nested containers. -/
  depth : Nat
  /-- Widths from here on are no indices. -/
  indexBound : Nat
  /-- Runs of characters from this length on do not fit into memory. -/
  memoryBound : Nat
  memoryBound_le : memoryBound ≤ indexBound
  /-- There is room for the indentation that is set by default. -/
  two_lt_memoryBound : 2 < memoryBound
  /-- The codecs of further codings, by the proper names of these. -/
  codec : String → Codec
  /-- The coding of files that are written without a word about it. -/
  locale : Charset

/-- The platform that the tools run on if there is no other: one with 64 bits that writes UTF-8 and
has no further codecs. -/
instance Platform.standard : Platform where
  halves := ⟨0xF8000, by decide, by decide⟩
  depth := 990
  indexBound := Nat.pow 2 63
  memoryBound := Nat.pow 2 35
  memoryBound_le := by decide
  two_lt_memoryBound := by decide
  codec := Codec.missing
  locale := .utf8

end ContractAsm
