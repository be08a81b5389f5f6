import Orthant.Form.Basic

/-! # Roots of integers

The factors of an integer that leave a root: `36 ^ (1/2)` is an integer, `12 ^ (1/2)` is twice the
root of 3.
-/

namespace Orthant

namespace Radical

def trialLimit : Nat := 32768

/-- The exponent of a divisor above one, and what is left without it. -/
def strip (p n : Nat) : Nat → Nat × Nat
  | 0 => (0, n)
  | fuel + 1 =>
    if n % p = 0 then
      let (k, m) := strip p (n / p) fuel
      (k + 1, m)
    else (0, n)

/-- The prime factors up to the limit with their exponents, and the rest as one factor. -/
def factorsFrom (p n : Nat) : Nat → List (Nat × Nat)
  | 0 => if n ≤ 1 then [] else [(n, 1)]
  | fuel + 1 =>
    if n ≤ 1 then []
    else if n < p * p then [(n, 1)]
    else if n % p = 0 then
      let (k, m) := strip p n (n.log2 + 1)
      (p, k) :: factorsFrom (p + 1) m fuel
    else factorsFrom (p + 1) n fuel

def factors (n : Nat) : List (Nat × Nat) := factorsFrom 2 n trialLimit

/-- A power of a positive integer with a fraction as exponent: an integer, a list of roots of
primes whose exponents cancel, and an integer under the reduced exponent. -/
structure Root where
  whole : Nat
  parts : List (Nat × Rat)
  radicand : Nat
  exponent : Rat

/-- Takes full powers out of the `den`-th root of the `num`-th power. -/
def ofPower (n num den : Nat) : Root :=
  let fs := (factors n).map fun f => (f.1, f.2 * num)
  let whole := fs.foldl (fun acc f => acc * Nat.pow f.1 (f.2 / den)) 1
  let rest := (fs.map fun f => (f.1, f.2 % den)).filter fun f => f.2 ≠ 0
  let parts := (rest.filter fun f => Nat.gcd f.2 den ≠ 1).map fun f => (f.1, mkRat f.2 den)
  let left := rest.filter fun f => Nat.gcd f.2 den = 1
  let g := left.foldl (fun acc f => Nat.gcd acc f.2) 0
  ⟨whole, parts, left.foldl (fun acc f => acc * Nat.pow f.1 (f.2 / g)) 1, mkRat g den⟩

end Radical

end Orthant
