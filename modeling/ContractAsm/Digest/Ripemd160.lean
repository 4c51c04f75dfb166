-- SUMMARY: The digest RIPEMD-160.
import ContractAsm.Digest.Words

/-!
# RIPEMD-160

Two lines of 80 rounds run over each block side by side and are joined at its end.
-/

namespace ContractAsm.Digest.Ripemd160

/-- The five words that are carried from block to block, and through the rounds of one. -/
structure State where
  a : UInt32
  b : UInt32
  c : UInt32
  d : UInt32
  e : UInt32

def start : State where
  a := 0x67452301
  b := 0xefcdab89
  c := 0x98badcfe
  d := 0x10325476
  e := 0xc3d2e1f0

/-- The word of the block that each round of the left line takes. -/
def leftWords : List Nat := [
  0, 1, 2, 3, 4, 5, 6, 7, 8, 9, 10, 11, 12, 13, 14, 15,
  7, 4, 13, 1, 10, 6, 15, 3, 12, 0, 9, 5, 2, 14, 11, 8,
  3, 10, 14, 4, 9, 15, 8, 1, 2, 7, 0, 6, 13, 11, 5, 12,
  1, 9, 11, 10, 0, 8, 12, 4, 13, 3, 7, 15, 14, 5, 6, 2,
  4, 0, 5, 9, 7, 12, 2, 10, 14, 1, 3, 8, 11, 6, 15, 13]

/-- The word of the block that each round of the right line takes. -/
def rightWords : List Nat := [
  5, 14, 7, 0, 9, 2, 11, 4, 13, 6, 15, 8, 1, 10, 3, 12,
  6, 11, 3, 7, 0, 13, 5, 10, 14, 15, 8, 12, 4, 9, 1, 2,
  15, 5, 1, 3, 7, 14, 6, 9, 11, 8, 12, 2, 10, 0, 4, 13,
  8, 6, 4, 1, 3, 11, 15, 0, 5, 12, 2, 13, 9, 7, 10, 14,
  12, 15, 10, 4, 1, 5, 8, 7, 6, 2, 13, 14, 0, 3, 9, 11]

/-- The rotation of each round of the left line. -/
def leftShifts : List UInt32 := [
  11, 14, 15, 12, 5, 8, 7, 9, 11, 13, 14, 15, 6, 7, 9, 8,
  7, 6, 8, 13, 11, 9, 7, 15, 7, 12, 15, 9, 11, 7, 13, 12,
  11, 13, 6, 7, 14, 9, 13, 15, 14, 8, 13, 6, 5, 12, 7, 5,
  11, 12, 14, 15, 14, 15, 9, 8, 9, 14, 5, 6, 8, 6, 5, 12,
  9, 15, 5, 11, 6, 8, 13, 12, 5, 12, 13, 14, 11, 8, 5, 6]

/-- The rotation of each round of the right line. -/
def rightShifts : List UInt32 := [
  8, 9, 9, 11, 13, 15, 15, 5, 7, 7, 8, 11, 14, 14, 12, 6,
  9, 13, 15, 7, 12, 8, 9, 11, 7, 7, 12, 7, 6, 15, 13, 11,
  9, 7, 15, 11, 8, 6, 6, 14, 12, 13, 5, 14, 13, 13, 7, 5,
  15, 5, 8, 11, 14, 14, 6, 14, 6, 9, 12, 9, 12, 5, 15, 8,
  8, 5, 12, 9, 12, 5, 14, 6, 8, 13, 6, 5, 15, 13, 11, 11]

/-- The constants of the left line, one for each sixteen rounds. -/
def leftConstants : List UInt32 :=
  [0x00000000, 0x5a827999, 0x6ed9eba1, 0x8f1bbcdc, 0xa953fd4e]

/-- The constants of the right line, one for each sixteen rounds. -/
def rightConstants : List UInt32 :=
  [0x50a28be6, 0x5c4dd124, 0x6d703ef3, 0x7a6d76e9, 0x00000000]

/-- The mixing functions, one for each sixteen rounds of the left line. -/
def mix (group : Nat) (x y z : UInt32) : UInt32 :=
  match group with
  | 0 => x ^^^ y ^^^ z
  | 1 => (x &&& y) ||| (~~~x &&& z)
  | 2 => (x ||| ~~~y) ^^^ z
  | 3 => (x &&& z) ||| (y &&& ~~~z)
  | _ => x ^^^ (y ||| ~~~z)

/-- What one round of a line takes: its mixing function, its constant, its word and its rotation. -/
structure Step where
  group : Nat
  constant : UInt32
  word : Nat
  shift : UInt32

/-- The rounds of the left line. -/
def leftSteps : List Step :=
  (leftWords.zip leftShifts).zipIdx.map fun ((w, s), i) =>
    ⟨i / 16, leftConstants.getD (i / 16) 0, w, s⟩

/-- The rounds of the right line, which takes the mixing functions in reverse order. -/
def rightSteps : List Step :=
  (rightWords.zip rightShifts).zipIdx.map fun ((w, s), i) =>
    ⟨4 - i / 16, rightConstants.getD (i / 16) 0, w, s⟩

def round (words : Array UInt32) (s : State) (step : Step) : State :=
  let t := s.a + mix step.group s.b s.c s.d + words.getD step.word 0 + step.constant
  { a := s.e, b := rotateLeft t step.shift + s.e, c := s.b, d := rotateLeft s.c 10, e := s.d }

def compress (s : State) (block : Bytes) : State :=
  let words := ((quads block).map fun q => UInt32.ofNat (ofBigEndian q.reverse)).toArray
  let l := leftSteps.foldl (round words) s
  let r := rightSteps.foldl (round words) s
  { a := s.b + l.c + r.d, b := s.c + l.d + r.e, c := s.d + l.e + r.a
    d := s.e + l.a + r.b, e := s.a + l.b + r.c }

def hash (message : Bytes) : Bytes :=
  let s := (blocks (pad (littleEndian 8) message)).foldl compress start
  [s.a, s.b, s.c, s.d, s.e].flatMap fun w => littleEndian 4 w.toNat

end ContractAsm.Digest.Ripemd160
