import Orthant.Number.Basic

/-! # Exact complex numbers

Complex numbers with rational parts. Those with integer parts have a greatest common divisor, which
is found by division to the nearest integer parts.
-/

namespace Orthant

structure Gauss where
  re : Rat
  im : Rat
  deriving DecidableEq

namespace Gauss

def ofRat (q : Rat) : Gauss := ⟨q, 0⟩

def zero : Gauss := ofRat 0

def one : Gauss := ofRat 1

def isZero (a : Gauss) : Bool := a.re == 0 && a.im == 0

def add (a b : Gauss) : Gauss := ⟨a.re + b.re, a.im + b.im⟩

def neg (a : Gauss) : Gauss := ⟨-a.re, -a.im⟩

def mul (a b : Gauss) : Gauss := ⟨a.re * b.re - a.im * b.im, a.re * b.im + a.im * b.re⟩

def inv (a : Gauss) : Gauss :=
  let n := a.re * a.re + a.im * a.im
  ⟨a.re / n, -a.im / n⟩

def div (a b : Gauss) : Gauss := a.mul b.inv

def natPow (a : Gauss) : Nat → Gauss
  | 0 => one
  | k + 1 => mul a (natPow a k)

def pow (a : Gauss) : Int → Gauss
  | .ofNat k => natPow a k
  | .negSucc k => natPow a.inv (k + 1)

def nearest (a : Gauss) : Gauss := ⟨roundDiv a.re.num a.re.den, roundDiv a.im.num a.im.den⟩

/-- The greatest common divisor of two numbers with integer parts. -/
def gcdFrom (a b : Gauss) : Nat → Gauss
  | 0 => a
  | fuel + 1 =>
    if b.isZero then a else gcdFrom b (a.add (b.mul (a.div b).nearest).neg) fuel

/-- Each step halves the norm at least, so twice the bits of the larger norm are enough. -/
def gcd (a b : Gauss) : Gauss :=
  let size (z : Gauss) : Nat := z.re.num.natAbs.log2 + z.im.num.natAbs.log2
  gcdFrom a b (2 * (size a + size b) + 4)

/-- The unit that turns a number into the quadrant of the positive real axis. -/
def unitOf (a : Gauss) : Gauss :=
  if 0 < a.re ∧ 0 ≤ a.im then one
  else if a.re ≤ 0 ∧ 0 < a.im then ⟨0, -1⟩
  else if a.re < 0 ∧ a.im ≤ 0 then ⟨-1, 0⟩
  else ⟨0, 1⟩

def toComplex (a : Gauss) : Complex := ⟨Double.ofRat a.re, Double.ofRat a.im⟩

end Gauss

end Orthant
