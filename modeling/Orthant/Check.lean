import Orthant.Decision.Verdict
import Orthant.EquationSystem.Homotopy
import Orthant.Options
import Orthant.Solver.Basic
import Orthant.Validation

/-! # The copositivity check

Validate the support, build the system, solve it, certify the solutions and decide. The general
method solves from scratch; the nonseparable one follows a single path from a balanced start.
-/

namespace Orthant

/-- A decision with the system whose solutions were certified. -/
structure Verified where
  decision : Decision
  system : EquationSystem

namespace Check

variable {σ : Type}

def solveGeneral (solver : Solver σ) (o : Options) (s : Support) :
    Work σ (EquationSystem × List Solution) := do
  let system ← Work.ofExcept (EquationSystem.ofSupport s)
  Work.report ⟨.debug, "check", "general homotopy: " ++ toString system.unknowns.length ++
    " unknowns, " ++ toString s.coefficients.length ++ " terms"⟩
  let solutions ← solver.solve system none o.seed
  return (system, solutions)

/-- The system at the true coefficients with the ends of the paths of the homotopy. -/
def trackHomotopy (solver : Solver σ) (o : Options) (s : Support)
    (balance : Balance.Program := .exact) : Work σ (EquationSystem × List Solution) := do
  let h ← Work.ofExcept (Homotopy.build s balance)
  let solutions ← solver.solve h.system (some ⟨[h.startSolution], h.start, h.target⟩) o.seed
  let system ← Work.ofExcept h.targetSystem
  return (system, solutions)

def solutionsBy (solver : Solver σ) (o : Options) (s : Support) (method : Method)
    (balance : Balance.Program := .exact) : Work σ (EquationSystem × List Solution) :=
  match method with
  | .general => solveGeneral solver o s
  | .nonseparable => trackHomotopy solver o s balance

/-- The certificates of solutions; where there are none, there is nothing to ask for. -/
def certificatesOf (solver : Solver σ) (method : Method) (system : EquationSystem)
    (solutions : List Solution) : Work σ (List Certificate) :=
  if solutions.isEmpty then do
    Work.report ⟨.warning, "check", method.text ++
      " homotopy returned no solutions; reporting no positive critical point"⟩
    return []
  else solver.certify system solutions

def run (solver : Solver σ) (o : Options) (method : Method) (s : Support)
    (balance : Balance.Program := .exact)
    (facets : Polytope.FacetProgram := Polytope.facetSimplices) : Work σ Verified := do
  let _ ← Work.ofLogged (s.validate facets)
  let (system, solutions) ← solutionsBy solver o s method balance
  let certificates ← certificatesOf solver method system solutions
  let decision ← Work.ofExcept (Decision.ofCertificates certificates method o.preferRefined.holds)
  Work.report decision.record
  return ⟨decision, system⟩

/-- Decides copositivity of the polynomial that a text describes. -/
def runSource (solver : Solver σ) (o : Options) (method : Method) (p : Polynomial.Source)
    (balance : Balance.Program := .exact)
    (facets : Polytope.FacetProgram := Polytope.facetSimplices) : Work σ Verified := do
  let s ← Work.ofExcept (Support.read p)
  run solver o method s balance facets

end Check

end Orthant
