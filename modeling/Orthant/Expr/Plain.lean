import Orthant.Expr.Basic
import Orthant.Sparse.Basic

/-! # Plain polynomial expressions

Sums, products and natural powers of exact numbers and names, and quotients by numbers, are
polynomials with rational coefficients in their names. They are computed directly.
-/

namespace Orthant

def Scalars.rational : Scalars Rat where
  zero := 0
  one := 1
  add a b := a + b
  neg a := -a
  mul a b := a * b
  isZero a := decide (a = 0)

namespace Expr

def placeOf (names : List String) (s : String) : Nat := names.findIdx (· = s)

/-- A power with an integer exponent: of one term, of a polynomial if the exponent is natural. -/
def plainPower? (n : Nat) (p : Sparse Rat) (k : Int) : Option (Sparse Rat) :=
  match p, k with
  | [(a, c)], .ofNat k => some [(a.map (· * k), Number.ratPow c k)]
  | [(a, c)], .negSucc k =>
    if a.all (· = 0) then some [(a, Number.ratPow c (.negSucc k))] else none
  | p, .ofNat k => some (Sparse.pow .rational n p k)
  | _, .negSucc _ => none

/-- The polynomial that a plain expression is in names among which are all its own. -/
def plain? (names : List String) : Expr → Option (Sparse Rat)
  | number (.exact q) => some (Sparse.constant .rational names.length q)
  | name s =>
    if names.contains s then
      some (Sparse.indeterminate .rational names.length (placeOf names s))
    else none
  | negate a => (plain? names a).map (Sparse.neg .rational)
  | plus a b => do some (Sparse.add .rational (← plain? names a) (← plain? names b))
  | minus a b => do
    some (Sparse.add .rational (← plain? names a) (Sparse.neg .rational (← plain? names b)))
  | times a b => do some (Sparse.mul .rational (← plain? names a) (← plain? names b))
  | divide a b => do
    let p ← plain? names a
    let c ← Sparse.constant? .rational (← plain? names b)
    if c = 0 then none else some (Sparse.scale .rational c⁻¹ p)
  | power a b => do
    let p ← plain? names a
    let c ← Sparse.constant? .rational (← plain? names b)
    if c.den = 1 then plainPower? names.length p c.num else none
  | _ => none

end Expr

end Orthant
