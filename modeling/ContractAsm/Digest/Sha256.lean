-- SUMMARY: The digest SHA-256.
import ContractAsm.Digest.Words

/-!
# SHA-256
-/

namespace ContractAsm.Digest.Sha256

/-- The eight words that are carried from block to block, and through the rounds of one. -/
structure State where
  a : UInt32
  b : UInt32
  c : UInt32
  d : UInt32
  e : UInt32
  f : UInt32
  g : UInt32
  h : UInt32

def start : State where
  a := 0x6a09e667
  b := 0xbb67ae85
  c := 0x3c6ef372
  d := 0xa54ff53a
  e := 0x510e527f
  f := 0x9b05688c
  g := 0x1f83d9ab
  h := 0x5be0cd19

/-- The constants of the 64 rounds. -/
def constants : List UInt32 := [
  0x428a2f98, 0x71374491, 0xb5c0fbcf, 0xe9b5dba5, 0x3956c25b, 0x59f111f1, 0x923f82a4, 0xab1c5ed5,
  0xd807aa98, 0x12835b01, 0x243185be, 0x550c7dc3, 0x72be5d74, 0x80deb1fe, 0x9bdc06a7, 0xc19bf174,
  0xe49b69c1, 0xefbe4786, 0x0fc19dc6, 0x240ca1cc, 0x2de92c6f, 0x4a7484aa, 0x5cb0a9dc, 0x76f988da,
  0x983e5152, 0xa831c66d, 0xb00327c8, 0xbf597fc7, 0xc6e00bf3, 0xd5a79147, 0x06ca6351, 0x14292967,
  0x27b70a85, 0x2e1b2138, 0x4d2c6dfc, 0x53380d13, 0x650a7354, 0x766a0abb, 0x81c2c92e, 0x92722c85,
  0xa2bfe8a1, 0xa81a664b, 0xc24b8b70, 0xc76c51a3, 0xd192e819, 0xd6990624, 0xf40e3585, 0x106aa070,
  0x19a4c116, 0x1e376c08, 0x2748774c, 0x34b0bcb5, 0x391c0cb3, 0x4ed8aa4a, 0x5b9cca4f, 0x682e6ff3,
  0x748f82ee, 0x78a5636f, 0x84c87814, 0x8cc70208, 0x90befffa, 0xa4506ceb, 0xbef9a3f7, 0xc67178f2]

/-- Rotates a word to the right, by 1 to 31 bits. -/
def rotateRight (x n : UInt32) : UInt32 :=
  rotateLeft x (32 - n)

/-- The word that follows the last sixteen of the schedule. -/
def nextWord (window : Array UInt32) : UInt32 :=
  let x := window.getD 1 0
  let y := window.getD 14 0
  let s := rotateRight x 7 ^^^ rotateRight x 18 ^^^ (x >>> 3)
  let t := rotateRight y 17 ^^^ rotateRight y 19 ^^^ (y >>> 10)
  window.getD 0 0 + s + window.getD 9 0 + t

/-- The schedule of a block: its words, then the given number of words made from them. -/
def schedule (window : Array UInt32) : Nat → List UInt32
  | 0 => window.toList
  | n + 1 =>
    let w := nextWord window
    window.getD 0 0 :: schedule ((window.drop 1).push w) n

def round (s : State) (constant word : UInt32) : State :=
  let high := rotateRight s.e 6 ^^^ rotateRight s.e 11 ^^^ rotateRight s.e 25
  let choice := (s.e &&& s.f) ^^^ (~~~s.e &&& s.g)
  let t := s.h + high + choice + constant + word
  let low := rotateRight s.a 2 ^^^ rotateRight s.a 13 ^^^ rotateRight s.a 22
  let majority := (s.a &&& s.b) ^^^ (s.a &&& s.c) ^^^ (s.b &&& s.c)
  { a := t + low + majority, b := s.a, c := s.b, d := s.c
    e := s.d + t, f := s.e, g := s.f, h := s.g }

def compress (s : State) (block : Bytes) : State :=
  let words := ((quads block).map fun q => UInt32.ofNat (ofBigEndian q)).toArray
  let r := (constants.zip (schedule words 48)).foldl (fun s (k, w) => round s k w) s
  { a := s.a + r.a, b := s.b + r.b, c := s.c + r.c, d := s.d + r.d
    e := s.e + r.e, f := s.f + r.f, g := s.g + r.g, h := s.h + r.h }

def hash (message : Bytes) : Bytes :=
  let s := (blocks (pad (bigEndian 8) message)).foldl compress start
  [s.a, s.b, s.c, s.d, s.e, s.f, s.g, s.h].flatMap fun w => bigEndian 4 w.toNat

end ContractAsm.Digest.Sha256
