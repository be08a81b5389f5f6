import Orthant.Number.Basic

/-! # Powers of inexact numbers

Integer powers are taken exactly while the digits are few and by repeated squaring with guard bits
otherwise. Half-integer powers go through the square root, all others through the logarithm, which
has ten guard bits.
-/

namespace Orthant

/-- Adds the bits of a root from the highest one down while the power stays below `n`. -/
def floorRootFrom (k n root : Nat) : Nat → Nat
  | 0 => root
  | bit + 1 =>
    let next := root + twoPow bit
    floorRootFrom k n (if Nat.pow next k ≤ n then next else root) bit

/-- The largest natural number whose `k`-th power is at most `n`, for positive `k`. -/
def floorRoot (k n : Nat) : Nat := floorRootFrom k n 0 (n.log2 / k + 1)

def exactRoot? (k n : Nat) : Option Nat :=
  let r := floorRoot k n
  if Nat.pow r k = n then some r else none

namespace Binary

/-- The number of factors two in a natural number, at most `fuel` of them. -/
def trailingZeros (n : Nat) : Nat → Nat
  | 0 => 0
  | fuel + 1 => if n % 2 = 0 then trailingZeros (n / 2) fuel + 1 else 0

/-- The odd significand and the exponent of a positive binary fraction. -/
def split (q : Rat) : Nat × Int :=
  let n := q.num.natAbs
  let z := trailingZeros n (n.log2 + 1)
  (n / twoPow z, (z : Int) - (q.den.log2 : Int))

def bitCount (n : Nat) : Nat := if n = 0 then 0 else n.log2 + 1

def truncate (w : Nat) (x : Nat × Int) : Nat × Int :=
  let c := bitCount x.1
  if w < c then (x.1 / twoPow (c - w), x.2 + ((c - w : Nat) : Int)) else x

def mulTruncated (w : Nat) (x y : Nat × Int) : Nat × Int := truncate w (x.1 * y.1, x.2 + y.2)

/-- The product of `p` with the `n`-th power of `b`, by squaring. -/
def powLoop (w : Nat) (p b : Nat × Int) (n : Nat) : Nat → Nat × Int
  | 0 => p
  | fuel + 1 =>
    let p := if n % 2 = 1 then mulTruncated w p b else p
    if n ≤ 1 then p else powLoop w p (mulTruncated w b b) (n / 2) fuel

def powPositive (k : Nat) (q : Rat) (n : Nat) : Rat :=
  let (m, e) := split q
  if n ≤ 2 ∨ bitCount m * n < 1000 then roundBits k (scaleTwo (Nat.pow m n) (e * n))
  else
    let w := k + 4 * bitCount n + 4
    let (m, e) := powLoop w (1, 0) (m, e) n (bitCount n)
    roundBits k (scaleTwo m e)

/-- A power of a positive binary fraction to `k` bits; a reciprocal has five guard bits. -/
def powMagnitude (k : Nat) (q : Rat) (n : Int) : Rat :=
  match n with
  | .ofNat n => if n = 0 then 1 else powPositive k q n
  | .negSucc 0 => roundBits k q⁻¹
  | .negSucc n => roundBits k (powPositive (k + 5) q (n + 1))⁻¹

/-- An integer power of a binary fraction other than zero to `k` bits. -/
def pow (k : Nat) (q : Rat) (n : Int) : Rat :=
  if q < 0 then
    let r := powMagnitude k (-q) n
    if n % 2 = 0 then r else -r
  else powMagnitude k q n

/-- The square root of a positive number to `k` bits. -/
def sqrt (k : Nat) (q : Rat) : Rat :=
  let shift := k + 4 + q.den.log2
  let n := q.num.natAbs * Nat.pow 4 shift
  let r := floorRoot 2 (n / q.den)
  if r * r * q.den = n then roundBits k (scaleTwo r (-(shift : Int)))
  else roundBits k (scaleTwo (2 * r + 1 : Nat) (-((shift : Int) + 1)))

/-- The sum of `z ^ (2i + 1) / (2i + 1)` in units of `2 ^ -p`, where `zz` is the square of `z`. -/
def atanhSeries (p : Nat) (term zz : Int) (i : Nat) (acc : Int) : Nat → Int
  | 0 => acc
  | fuel + 1 =>
    if term = 0 then acc
    else atanhSeries p (term * zz / (twoPow p : Nat)) zz (i + 1) (acc + term / (2 * i + 1 : Nat)) fuel

/-- The area hyperbolic tangent of a number of magnitude at most one third, in units of
`2 ^ -p`. -/
def atanhUnits (p : Nat) (z : Rat) : Int :=
  let t := z.num * (twoPow p : Nat) / (z.den : Int)
  atanhSeries p t (t * t / (twoPow p : Nat)) 0 0 p

def logTwoUnits (p : Nat) : Int := 2 * atanhUnits p (mkRat 1 3)

/-- The natural logarithm of a positive number to `k` bits. -/
def log (k : Nat) (q : Rat) : Rat :=
  let p := 2 * k + 40 + q.num.natAbs.log2 + q.den.log2
  let e := floorLogTwo q.num.natAbs q.den
  let m := q / scaleTwo 1 e
  let units := 2 * atanhUnits p ((m - 1) / (m + 1)) + e * logTwoUnits p
  roundBits k (mkRat units (twoPow p))

def expSeries (p : Nat) (x term : Int) (i : Nat) (acc : Int) : Nat → Int
  | 0 => acc
  | fuel + 1 =>
    if term = 0 then acc
    else expSeries p x (term * x / (twoPow p : Nat) / (i : Int)) (i + 1) (acc + term) fuel

def exp (k : Nat) (x : Rat) : Rat :=
  let p := k + 60 + x.num.natAbs.log2
  let units := x.num * (twoPow p : Nat) / (x.den : Int)
  let two := logTwoUnits p
  let n := units / two
  let rest := units - n * two
  roundBits k (scaleTwo (expSeries p rest (twoPow p : Nat) 1 0 (2 * p)) (n - (p : Int)))

/-- A power of a positive number with a binary fraction as exponent, to `k` bits. -/
def powFraction (k : Nat) (q t : Rat) : Rat :=
  if t.den = 1 then pow k q t.num
  else if t.den = 2 then
    if t.num = 1 then sqrt k q
    else if t.num = -1 then roundBits k (sqrt (k + 10) q)⁻¹
    else pow k (sqrt (k + 10) q) t.num
  else exp k (t * log (k + 10) q)

end Binary

namespace Number

/-- An integer power of a finite number other than zero. -/
def pow {K : Type} [Pow K Int] [Exact K] (c : Number K) (n : Int) : Number K :=
  match c with
  | exact q => exact (q ^ n)
  | approx k q => if q = 0 then approx k q else approx k (Binary.pow k q n)
  | infinite s => if n < 0 then zero else infinite (s && n % 2 != 0)
  | undefined => undefined

end Number

end Orthant
