import Orthant.Polytope.Balance
import Orthant.EquationSystem.General

/-! # The homotopy of a nonseparable support

Every coefficient becomes a parameter. At the start the parameters are balance weights on the
positive terms and minus one on the first negative term, where the point of all ones solves the
system; at the end they are the true coefficients.
-/

namespace Orthant

structure Homotopy (K : Type := Rat) where
  system : EquationSystem K
  start : List Double
  target : List Double
  startSolution : List Double
  /-- The exact balance point, the negative slot last. -/
  weights : Vec

namespace Homotopy

variable {K : Type} [Add K] [Mul K] [Exact K]

def unitRow (count i : Nat) : List Int := (List.range count).map fun j => if i = j then 1 else 0

/-- The deformation with one parameter for each term, positive terms first. -/
def deformation (width : Nat) (positive negative : List (List Int)) : Equation K :=
  let count := positive.length + negative.length
  Equation.collect (width + 1 + count)
    (positive.zipIdx.map (fun a => (0 :: a.1 ++ unitRow count a.2, .one)) ++
      negative.zipIdx.map fun b => (1 :: b.1 ++ unitRow count (positive.length + b.2), .one))

def parametric (s : Support K) : EquationSystem K :=
  let t := freshName "t" s.names
  let count := s.positiveTerms.length + s.negativeTerms.length
  ⟨t :: s.names, freshNames "p" count (s.names ++ [t]),
    EquationSystem.criticalEquations s.dimension
      (deformation s.dimension s.positiveExponents s.negativeExponents)⟩

def wordText (n : Int) : String := "np.int64(" ++ toString n ++ ")"

def balanceWeights (s : Support K) (b : List Int) (program : Balance.Program := .exact) :
    Except Error Vec :=
  Balance.point (Balance.matrixOf s.positiveExponents b) (b.map wordText) program

/-- The weights of the positive terms, minus that of the negative term, zeros for the others. -/
def startParameters (weights : Vec) (positive negative : Nat) : List Double :=
  (weights.take positive).map Double.ofRat ++ [(Double.ofRat (weights.getLastD 0)).neg] ++
    List.replicate (negative - 1) .zero

def ofWeights (s : Support K) (weights : Vec) : Homotopy K where
  system := parametric s
  start := startParameters weights s.positiveTerms.length s.negativeTerms.length
  target := (s.positiveCoefficients ++ s.negativeCoefficients).map Number.toDouble
  startSolution := List.replicate (s.dimension + 1) .one
  weights := weights

/-- The homotopy of a support, with the program that proposes its balance point. -/
def build (s : Support K) (program : Balance.Program := .exact) : Except Error (Homotopy K) := do
  let s ← s.checked
  match s.negativeExponents with
  | [] => .error .homotopyWithoutNegative
  | b :: _ => do
    let weights ← balanceWeights s b program
    if s.isSmooth then .ok (ofWeights s weights) else fail .value

def targetSystem (h : Homotopy) : Except Error EquationSystem :=
  h.system.specialize (h.target.map Double.toNumber)

/-- Whether the start solution solves the start system to within 1e-9. -/
def startsAtZero (h : Homotopy) : Bool :=
  let point := (h.startSolution ++ h.start).map fun x => x.value?.getD 0
  h.system.equations.all fun e =>
    let v := e.evalAt point
    decide (-(scaleTen 1 (-9)) ≤ v ∧ v ≤ scaleTen 1 (-9))

end Homotopy

end Orthant
