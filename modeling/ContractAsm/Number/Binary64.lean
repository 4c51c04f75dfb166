-- SUMMARY: Floating-point numbers of 64 bits, read from and written as decimals.
import ContractAsm.Number.Numeral

/-!
# Binary floating-point numbers of 64 bits

The numbers are kept exactly, as an integer times a power of two. Reading a decimal rounds it to
the nearest number, a half to the even neighbour; writing gives the fewest digits that read back.
-/

namespace ContractAsm

/-- A floating-point number. A finite one is `significand * 2 ^ exponent`, with the significand
below `2 ^ 53` and the exponent as small as that allows, but not below `-1074`. -/
inductive Binary64 where
  | nan
  | infinite (negative : Bool)
  | finite (negative : Bool) (significand : Nat) (exponent : Int)
  deriving DecidableEq, Repr

namespace Binary64

def minExponent : Int := -1074

def maxExponent : Int := 971

/-- The bound on significands. -/
def significandBound : Nat := Nat.pow 2 53

def zero (negative : Bool) : Binary64 :=
  .finite negative 0 minExponent

/-! ## Reading -/

/-- The integer nearest to a quotient, a half going to the even neighbour. -/
def roundDiv (num den : Nat) : Nat :=
  let q := num / den
  let twice := 2 * (num % den)
  if twice < den then q
  else if den < twice then q + 1
  else q + q % 2

/-- A quotient scaled by a power of two, as a quotient again. -/
def scale (num den : Nat) (e : Int) : Nat × Nat :=
  if 0 ≤ e then (num * Nat.pow 2 e.toNat, den)
  else (num, den * Nat.pow 2 (-e).toNat)

/-- The exponent at which a positive quotient has a significand of 53 bits, or the least exponent
if that is greater. -/
def exponentOf (num den : Nat) : Int :=
  let guess : Int := (num.log2 : Int) - den.log2 - 53
  let (n, d) := scale num den (-guess)
  max (if significandBound ≤ n / d then guess + 1 else guess) minExponent

/-- The number nearest to a positive quotient. -/
def ofQuotient (negative : Bool) (num den : Nat) : Binary64 :=
  let e := exponentOf num den
  let (n, d) := scale num den (-e)
  let m := roundDiv n d
  let (m, e) := if m = significandBound then (m / 2, e + 1) else (m, e)
  if maxExponent < e then .infinite negative else .finite negative m e

/-- The number nearest to `m * 10 ^ e`. Exponents far out of range are decided without computing
the power. -/
def ofDecimal (negative : Bool) (m : Nat) (e : Int) : Binary64 :=
  if m = 0 then zero negative
  else
    let magnitude : Int := (Numeral.digits m).length + e
    if 310 < magnitude then .infinite negative
    else if magnitude < -330 then zero negative
    else if 0 ≤ e then ofQuotient negative (m * Nat.pow 10 e.toNat) 1
    else ofQuotient negative m (Nat.pow 10 (-e).toNat)

/-! ## Comparing -/

/-- The value of a finite number is a zero of either sign. -/
def isZero : Binary64 → Bool
  | .finite _ m _ => m == 0
  | _ => false

/-- A finite number as a quotient, whose numerator has the sign. -/
def quotient (negative : Bool) (m : Nat) (e : Int) : Int × Nat :=
  let (num, den) := scale m 1 e
  (Numeral.signed negative num, den)

/-- Equality of values: the two zeros are equal. -/
def sameValue : Binary64 → Binary64 → Bool
  | .finite n m e, .finite n' m' e' =>
    let (num, den) := quotient n m e
    let (num', den') := quotient n' m' e'
    num * den' == num' * den
  | .infinite n, .infinite n' => n == n'
  | .nan, .nan => true
  | _, _ => false

/-- Exact comparison with an integer. -/
def sameInt : Binary64 → Int → Bool
  | .finite negative m e, n =>
    let (num, den) := quotient negative m e
    num == n * den
  | _, _ => false

/-! ## Writing -/

/-- The fewest decimal digits `d` and the exponent `k` such that `d * 10 ^ k` reads back as
`m * 2 ^ e`, nearest to it among those. Grids of powers of ten are tried from coarse to fine. On
each, the two neighbours of the value are tested against the interval of the reals that round to
it. The interval is given by its quotients `low / den` and `high / den`, with the value `num / den`
between them. The fuel bounds the number of grids. -/
def shortestFrom (num den low high : Nat) (closed : Bool) : Nat → Int → Nat × Int
  | 0, k => (0, k)
  | fuel + 1, k =>
    let unit := if 0 ≤ k then den * Nat.pow 10 k.toNat else den
    let up := if 0 ≤ k then 1 else Nat.pow 10 (-k).toNat
    let (num', low', high') := (num * up, low * up, high * up)
    let inside (x : Nat) := if closed then low' ≤ x && x ≤ high' else low' < x && x < high'
    let below := num' / unit
    let above := below + 1
    match inside (below * unit) && 0 < below, inside (above * unit) with
    | true, true => (roundDiv num' unit, k)
    | true, false => (below, k)
    | false, true => (above, k)
    | false, false => shortestFrom num den low high closed fuel (k - 1)

/-- The shortest decimal digits and exponent of a positive finite number. The first grid is coarser
than the number; seventeen digits always suffice, and these end within 400 grids. -/
def shortest (m : Nat) (e : Int) : Nat × Int :=
  let gap := if m = Nat.pow 2 52 ∧ minExponent < e then 1 else 2
  let (_, den) := scale 1 1 (e - 2)
  let (num, _) := scale (4 * m) 1 (e - 2)
  let (low, _) := scale (4 * m - gap) 1 (e - 2)
  let (high, _) := scale (4 * m + 2) 1 (e - 2)
  let top : Int := (Numeral.digits (num / den)).length
  let start : Int := if num < den then 0 else top
  shortestFrom num den low high (m % 2 == 0) 400 start

/-- The digits of a decimal, placed around the point. Decimals from `10 ^ -4` on and below
`10 ^ 16` are written out, with at least one digit behind the point; others take an exponent of at
least two digits. -/
def place (ds : Text) (k : Int) : Text :=
  let point : Int := ds.length + k
  if -4 < point ∧ point ≤ 16 then
    if point ≤ 0 then "0.".toList ++ List.replicate (-point).toNat '0' ++ ds
    else if (ds.length : Int) ≤ point then
      ds ++ List.replicate (point - ds.length).toNat '0' ++ ".0".toList
    else ds.take point.toNat ++ '.' :: ds.drop point.toNat
  else
    let exponent := point - 1
    let mantissa := match ds with
      | [] => []
      | [d] => [d]
      | d :: rest => d :: '.' :: rest
    let sign := if exponent < 0 then '-' else '+'
    let power := Numeral.digits exponent.natAbs
    mantissa ++ 'e' :: sign :: List.replicate (2 - power.length) '0' ++ power

/-- The text of a number: the fewest digits that read back. -/
def toText : Binary64 → Text
  | .nan => "nan".toList
  | .infinite negative => (if negative then "-inf" else "inf").toList
  | .finite negative m e =>
    let text := if m = 0 then "0.0".toList else
      let (d, k) := shortest m e
      place (Numeral.digits d) k
    if negative then '-' :: text else text

end Binary64

end ContractAsm
