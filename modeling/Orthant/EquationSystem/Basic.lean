import Orthant.Support.Basic

/-! # Polynomial systems

Each equation is a sum of rows, exponents over the unknowns and the parameters with a number, no
exponent twice and no number zero. The first unknown is the deformation parameter.
-/

namespace Orthant

abbrev Row (K : Type := Rat) := List Int × Number K

abbrev Equation (K : Type := Rat) := List (Row K)

variable {K : Type} [Add K] [Mul K] [Pow K Int] [Exact K]

namespace Equation

/-- Adds a row to the one with the same exponents; a sum that is zero disappears. -/
def insert (r : Row K) : Equation K → Equation K
  | [] => if r.2.isZero then [] else [r]
  | s :: ss =>
    if s.1 = r.1 then
      let c := s.2.add r.2
      if c.isZero then ss else (s.1, c) :: ss
    else s :: insert r ss

/-- The sum of rows, taken from left to right. An undefined coefficient spoils the whole sum. -/
def collect (width : Nat) (rows : List (Row K)) : Equation K :=
  let e := rows.foldl (fun acc r => insert r acc) []
  if e.any fun r => r.2.isUndefined then [(List.replicate width 0, .undefined)] else e

def isExact (e : Equation K) : Bool := e.all fun r => r.2.isExact

/-- The operator `x * ∂/∂x` for the unknown at a place: each coefficient times the exponent
there. -/
def logDerivative (e : Equation K) (place : Nat) : Equation K :=
  (e.filter fun r => r.1.getD place 0 != 0).map fun r =>
    (r.1, r.2.mul (.ofInt (r.1.getD place 0)))

/-- The rows in falling order, all numbers inexact if one of them is; a row of zeros if there is
nothing else. -/
def listing (width : Nat) (e : Equation K) : Equation K :=
  if e.isEmpty then [(List.replicate width 0, .zero)]
  else
    let sorted := e.mergeSort fun r s => fallingLex r.1 s.1
    (sorted.map Prod.fst).zip (Number.unify (sorted.map Prod.snd))

/-- The value of an equation at exact unknowns and parameters. -/
def evalAt (e : Equation K) (point : List K) : K :=
  e.foldl (fun acc r => acc + (r.1.zip point).foldl (fun p f => p * f.2 ^ f.1) r.2.value)
    (Exact.ofRat 0)

/-- The product of the known powers of a row, and the exponents of the unknowns without value. -/
def substitute (point : List (Option K)) (r : Row K) : List Int × K :=
  let used := r.1.zip (point ++ List.replicate (r.1.length - point.length) none)
  (used.map fun f => if f.2.isSome then 0 else f.1,
    used.foldl (fun p f => match f.2 with
      | some x => p * x ^ f.1
      | none => p) r.2.value)

/-- Whether no zero is raised to a negative power. -/
def isDefinedAt (point : List (Option K)) (e : Equation K) : Bool :=
  e.all fun r => (r.1.zip point).all fun f => f.2.all fun x => decide (0 ≤ f.1) || !Exact.isZero x

def insertValue (t : List Int × K) : List (List Int × K) → List (List Int × K)
  | [] => [t]
  | s :: ss => if s.1 = t.1 then (s.1, s.2 + t.2) :: ss else s :: insertValue t ss

def exactValue (point : List (Option K)) (e : Equation K) : Except Error K :=
  let sums := (e.map (substitute point)).foldl (fun acc t => insertValue t acc) []
  let left := sums.filter fun s => !Exact.isZero s.2
  if left.any fun s => s.1.any (· ≠ 0) then fail .kind
  else .ok (left.foldl (fun acc s => acc + s.2) (Exact.ofRat 0))

end Equation

structure EquationSystem (K : Type := Rat) where
  /-- The unknowns, the deformation parameter first. -/
  unknowns : List String
  parameters : List String
  equations : List (Equation K)

namespace EquationSystem

def t (s : EquationSystem K) : String := s.unknowns.headD ""

def width (s : EquationSystem K) : Nat := s.unknowns.length + s.parameters.length

/-- Fails where a system is not polynomial in distinct names. -/
def check (s : EquationSystem K) : Except Error Unit :=
  if Polynomial.hasRepeats (s.unknowns ++ s.parameters) then fail .generators
  else if s.equations.any fun e => e.any fun r => r.1.any (· < 0) then fail .notPolynomial
  else .ok ()

def listings (s : EquationSystem K) : Except Error (List (Equation K)) := do
  s.check
  .ok (s.equations.map (Equation.listing s.width))

def terms (s : EquationSystem K) : Except Error (List (List (List Int) × List Double)) := do
  .ok ((← s.listings).map fun e => (e.map Prod.fst, e.map fun r => r.2.toDouble))

/-- The exponents of each equation one after the other, with its double coefficients. -/
def flat (s : EquationSystem K) : Except Error (List (List Int × List Double)) := do
  .ok ((← s.terms).map fun e => (e.1.flatten, e.2))

def parameterOf (s : EquationSystem K) (r : Row K) : String :=
  (((s.parameters.zip (r.1.drop s.unknowns.length)).find? fun p => p.2 != 0).map Prod.fst).getD ""

def byParameter (s : EquationSystem K) (e : Equation K) : Equation K :=
  e.mergeSort fun r r' => decide (s.parameterOf r ≤ s.parameterOf r')

/-- Multiplies the parameters of a row into its coefficient. -/
def specializeRow (n : Nat) (values : List (Number K)) (r : Row K) : Row K :=
  (r.1.take n, ((r.1.drop n).zip values).foldl (fun c f =>
    if f.1 = 0 then c else c.mul (f.2.pow f.1)) r.2)

/-- Fixes every parameter; the result has none left. Parameters are fixed in the order of their
names, which tells in what order inexact numbers are added. -/
def specialize (s : EquationSystem K) (values : List (Number K)) :
    Except Error (EquationSystem K) :=
  if values.length = s.parameters.length then
    .ok ⟨s.unknowns, [], s.equations.map fun e =>
      Equation.collect s.unknowns.length
        ((s.byParameter e).map (specializeRow s.unknowns.length values))⟩
  else .error (.parameterCount s.parameters.length values.length)

/-- The values at a place, as far as there are any. -/
def assign {α : Type} (count : Nat) (values : List α) : List (Option α) :=
  (List.range count).map fun i => values[i]?

def assignment (s : EquationSystem K) (point parameters : List K) : List (Option K) :=
  assign s.unknowns.length point ++ assign s.parameters.length parameters

def exactValues (s : EquationSystem K) (point parameters : List K) : Except Error (List K) :=
  s.equations.mapM (Equation.exactValue (s.assignment point parameters))

/-- Whether all coefficients are exact and all equations have a value. -/
def isDefinedAt (s : EquationSystem K) (point parameters : List K) : Bool :=
  s.equations.all fun e => e.isExact && e.isDefinedAt (s.assignment point parameters)

/-- The critical equations of a function: itself and its logarithmic derivatives by the unknowns
from the second on. -/
def criticalEquations (n : Nat) (f : Equation K) : List (Equation K) :=
  f :: (List.range n).map fun i => f.logDerivative (i + 1)

end EquationSystem

end Orthant
