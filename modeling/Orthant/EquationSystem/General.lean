import Orthant.EquationSystem.Basic
import Orthant.EquationSystem.Fresh

/-! # The general system

The negative terms of a polynomial are multiplied by a new unknown `t`; the system asks for the
critical points of that deformation at level zero.
-/

namespace Orthant

variable {K : Type} [Add K] [Mul K] [Exact K]

namespace EquationSystem

/-- The positive terms plus `t` times the negative ones. -/
def deformation (s : Support K) : Equation K :=
  Equation.collect (s.dimension + 1) (s.positiveTerms.map (fun r => (0 :: r.1, r.2)) ++
    s.negativeTerms.map fun r => (1 :: r.1, r.2))

def general (s : Support K) : EquationSystem K :=
  ⟨freshName "t" s.names :: s.names, [], criticalEquations s.dimension (deformation s)⟩

/-- The general system of a support whose coefficients have signs. One cannot differentiate by a
variable that is no name. -/
def ofSupport (s : Support K) : Except Error (EquationSystem K) := do
  let s ← s.checked
  if s.isSmooth then .ok (general s) else fail .value

end EquationSystem

end Orthant
