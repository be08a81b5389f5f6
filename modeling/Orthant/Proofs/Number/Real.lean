import Mathlib
import Orthant.Proofs.Number.Exact
import Orthant.Support.Basic

/-! # Real numbers as exact numbers

Constants, roots of rationals, their products and sums are exact numbers among the reals. A real number
is rounded as the multiple of a power of two that it is, or else as the middle of the interval between
two such multiples, which are fine enough that all numbers between them round alike.
-/

namespace Orthant

/-- The multiple of a power of two that a number is, or the middle between its neighbours. -/
noncomputable def gridPoint (e : ℤ) (x : ℝ) : ℚ :=
  let n : ℚ := ⌊x / 2 ^ e⌋
  if n * 2 ^ e = x then n * 2 ^ e else (n + 1 / 2) * 2 ^ e

noncomputable instance : Exact ℝ where
  ofRat q := q
  isZero x := decide (x = 0)
  isNegative x := decide (x < 0)
  roundBits k x := roundBits k (gridPoint (Int.log 2 |x| - k) x)
  toDouble x := Double.ofRat (gridPoint (min (Int.log 2 |x|) 0 - 1100) x)

instance : LawfulExact ℝ := ⟨fun _ => rfl, fun _ => decide_eq_true_iff⟩

instance : SignedExact ℝ := ⟨fun _ => decide_eq_true_iff⟩

namespace Number

/-- A number in a larger field. -/
def map {K L : Type} (f : K → L) : Number K → Number L
  | exact q => exact (f q)
  | approx k q => approx k q
  | infinite s => infinite s
  | undefined => undefined

end Number

namespace Form

/-- The value of a function of real numbers. A constant has no arguments. -/
noncomputable def realFunction? : String → List ℝ → Option ℝ
  | "pi", [] => some Real.pi
  | "exp", [x] => some (Real.exp x)
  | "log", [x] => if 0 < x then some (Real.log x) else none
  | "sin", [x] => some (Real.sin x)
  | "cos", [x] => some (Real.cos x)
  | _, _ => none

mutual

/-- The real number that a form is: powers of positive numbers, products, sums and functions. -/
noncomputable def real? : Form → Option ℝ
  | number (.exact q) => some q
  | power b e =>
    match real? b, real? e with
    | some x, some y => if 0 < x then some (x ^ y) else none
    | _, _ => none
  | product fs => (reals? fs).map List.prod
  | sum ts => (reals? ts).map List.sum
  | call f as => (reals? as).bind (realFunction? f)
  | _ => none

noncomputable def reals? : List Form → Option (List ℝ)
  | [] => some []
  | f :: fs =>
    match real? f, reals? fs with
    | some x, some xs => some (x :: xs)
    | _, _ => none

end

noncomputable def realNumber? : Form → Option (Number ℝ)
  | number c => some (c.map (↑))
  | f => (real? f).map .exact

end Form

open Classical in
/-- A real number is written as some form that has its value, if there is one. -/
noncomputable instance : Symbolic ℝ where
  number? := Form.realNumber?
  toForm c := if h : ∃ f, Form.realNumber? f = some c then h.choose else .number .undefined
  number?_exact _ := rfl

end Orthant
