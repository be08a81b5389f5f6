/-! # Rounding of rationals

Nearest integers and nearest binary fractions, a half going to the even neighbour.
All rounding of the library goes through `roundDiv`.
-/

namespace Orthant

def twoPow (k : Nat) : Nat := Nat.pow 2 k

def tenPow (k : Nat) : Nat := Nat.pow 10 k

/-- The integer nearest to `n / d`, a half going to the even neighbour. -/
def roundDiv (n : Int) (d : Nat) : Int :=
  let q := n / (d : Int)
  let r := n % (d : Int)
  if 2 * r < d then q
  else if (d : Int) < 2 * r then q + 1
  else if q % 2 = 0 then q
  else q + 1

def scaleTwo (m : Int) : Int → Rat
  | .ofNat k => ((m * twoPow k : Int) : Rat)
  | .negSucc k => mkRat m (twoPow (k + 1))

def scaleTen (m : Int) : Int → Rat
  | .ofNat k => ((m * tenPow k : Int) : Rat)
  | .negSucc k => mkRat m (tenPow (k + 1))

def roundTwo (q : Rat) : Int → Int
  | .ofNat k => roundDiv q.num (q.den * twoPow k)
  | .negSucc k => roundDiv (q.num * twoPow (k + 1)) q.den

/-- The exponent `l` with `2 ^ l ≤ n / d < 2 ^ (l + 1)`, for positive `n` and `d`. -/
def floorLogTwo (n d : Nat) : Int :=
  let l : Int := (n.log2 : Int) - (d.log2 : Int)
  let below := match l with
    | .ofNat k => decide (n < d * twoPow k)
    | .negSucc k => decide (n * twoPow (k + 1) < d)
  if below then l - 1 else l

/-- The exponent `l` with `10 ^ l ≤ n / d < 10 ^ (l + 1)`, searched upward from a lower bound. -/
def floorLogTenFrom (n d : Nat) (l : Int) : Nat → Int
  | 0 => l
  | fuel + 1 =>
    let reaches := match l + 1 with
      | .ofNat k => decide (d * tenPow k ≤ n)
      | .negSucc k => decide (d ≤ n * tenPow (k + 1))
    if reaches then floorLogTenFrom n d (l + 1) fuel else l

/-- The exponent `l` with `10 ^ l ≤ n / d < 10 ^ (l + 1)`, for positive `n` and `d`.
Decimal exponents grow at least three tenths as fast as binary ones, so the search starts
close below the answer. -/
def floorLogTen (n d : Nat) : Int :=
  let b := floorLogTwo n d
  let low := if b < 0 then b * 30103 / 100000 - 1 else b * 30102 / 100000 - 1
  floorLogTenFrom n d low 4

/-- The nearest number with a given number of significant bits and any exponent. -/
def roundBits (bits : Nat) (q : Rat) : Rat :=
  if q.num = 0 then 0
  else
    let e := floorLogTwo q.num.natAbs q.den - (bits : Int) + 1
    scaleTwo (roundTwo q e) e

end Orthant
