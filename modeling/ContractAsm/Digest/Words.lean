-- SUMMARY: Words, byte orders and padded blocks of digests.
import ContractAsm.Text.Hex

/-!
# Words of 32 bits

What the two digests share: rotation of words, conversion between words and bytes, and the padding
of a message to whole blocks of 64 bytes.
-/

namespace ContractAsm.Digest

/-- Rotates a word to the left, by 1 to 31 bits. -/
def rotateLeft (x n : UInt32) : UInt32 :=
  (x <<< n) ||| (x >>> (32 - n))

/-- The bytes of a number, most significant first. -/
def bigEndian (count n : Nat) : Bytes :=
  (List.range count).reverse.map fun i => UInt8.ofNat (n >>> (8 * i))

/-- The bytes of a number, least significant first. -/
def littleEndian (count n : Nat) : Bytes :=
  (List.range count).map fun i => UInt8.ofNat (n >>> (8 * i))

/-- The number with the given bytes, most significant first. -/
def ofBigEndian (bytes : Bytes) : Nat :=
  bytes.foldl (fun n b => n * 256 + b.toNat) 0

/-- The zeros between the end mark of a message of this length and its length field. -/
def paddingZeros (length : Nat) : Nat :=
  (119 - length % 64) % 64

/-- A message with an end mark, zeros and the eight bytes of its length in bits. -/
def pad (lengthBytes : Nat → Bytes) (message : Bytes) : Bytes :=
  message ++ 0x80 :: List.replicate (paddingZeros message.length) 0
    ++ lengthBytes (8 * message.length)

/-- Cuts a list into pieces of `n + 1` elements; the last piece may be shorter. -/
def chunksFrom (n room : Nat) (piece : List α) : List α → List (List α)
  | [] => if piece.isEmpty then [] else [piece.reverse]
  | x :: xs =>
    match room with
    | 0 => (x :: piece).reverse :: chunksFrom n n [] xs
    | room + 1 => chunksFrom n room (x :: piece) xs

/-- The four-byte pieces of a block. -/
def quads (block : Bytes) : List Bytes :=
  chunksFrom 3 3 [] block

/-- The blocks of a padded message. -/
def blocks (message : Bytes) : List Bytes :=
  chunksFrom 63 63 [] message

end ContractAsm.Digest
