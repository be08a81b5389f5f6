import Mathlib
import Orthant.Check
import Orthant.Proofs.Except
import Orthant.Proofs.EquationSystem.Homotopy
import Orthant.Proofs.Solver.Work

/-! # The requests of a check

What a check asks of its solver is settled before it asks: the system to solve, where the paths start, and
the system whose solutions are certified. A solver may answer anything and fail at any request. It is asked
to solve once, and then at most once to certify.
-/

namespace Orthant

namespace Homotopy

end Homotopy

namespace Check

open Work

/-- What a check asks of a solver. -/
structure Task where
  /-- The system to solve. -/
  solved : EquationSystem
  /-- Where paths start, if solutions are followed along a homotopy. -/
  start : Option Start
  /-- The system whose solutions are certified. -/
  certified : EquationSystem

section Tasks

variable {s : Support} {method : Method} {p : Polynomial.Source} {a : Task}
  {balance : Balance.Program} {facets : Polytope.FacetProgram}

end Tasks

section Runs

variable {σ : Type} {solver : Solver σ} {o : Options} {method : Method} {s : Support} {a : Task}
  {w : World σ} {calls : List Call} {e : Error} {balance : Balance.Program}
  {facets : Polytope.FacetProgram}

/-! ## Solving -/

theorem method_ofCertificates {cs : List Certificate} {preferRefined : Bool} {d : Decision}
    (h : Decision.ofCertificates cs method preferRefined = .ok d) : d.method = method := by
  unfold Decision.ofCertificates at h
  split at h
  · obtain rfl := Except.ok.inj h
    rfl
  · obtain ⟨_, -, h⟩ := bind_eq_ok.mp h
    obtain ⟨_, -, h⟩ := bind_eq_ok.mp h
    obtain ⟨_, -, h⟩ := bind_eq_ok.mp h
    obtain ⟨_, -, h⟩ := bind_eq_ok.mp h
    obtain rfl := Except.ok.inj h
    rfl

/-! ## The whole check -/

/-- How a check with a task ends, and what its solver has been asked. -/
inductive Course (solver : Solver σ) (o : Options) (method : Method) (a : Task) (w : World σ) :
    Except Error Verified → List Call → Prop

  | unsolved {e : Error} {v : World σ} :
      (solver.solve a.solved a.start o.seed).runIn w = (.error e, v) →
      Course solver o method a w (.error e) [.solve a.solved a.start o.seed]

  | empty {v : World σ} : (solver.solve a.solved a.start o.seed).runIn w = (.ok [], v) →
      Course solver o method a w (.ok ⟨⟨.fails, method, .nan, [], none, []⟩, a.certified⟩)
        [.solve a.solved a.start o.seed]

  | uncertified {zs : List Solution} {e : Error} {v : World σ} : zs ≠ [] →
      (solver.solve a.solved a.start o.seed).runIn w = (.ok zs, v) →
      ((solver.certify a.certified zs).runIn v).1 = .error e →
      Course solver o method a w (.error e)
        [.solve a.solved a.start o.seed, .certify a.certified zs]

  | certified {zs : List Solution} {cs : List Certificate} {v : World σ} : zs ≠ [] →
      (solver.solve a.solved a.start o.seed).runIn w = (.ok zs, v) →
      ((solver.certify a.certified zs).runIn v).1 = .ok cs →
      Course solver o method a w
        ((Decision.ofCertificates cs method o.preferRefined.holds).map fun d => ⟨d, a.certified⟩)
        [.solve a.solved a.start o.seed, .certify a.certified zs]

theorem Course.result {outcome : Except Error Verified} (h : Course solver o method a w outcome calls)
    {r : Verified} (hr : outcome = .ok r) : r.system = a.certified ∧ r.decision.method = method := by
  cases h with
  | unsolved => cases hr
  | empty => cases hr; exact ⟨rfl, rfl⟩
  | uncertified => cases hr
  | @certified zs cs v hzs hfound hcs =>
    cases hd : Decision.ofCertificates cs method o.preferRefined.holds with
    | error e => rw [hd] at hr; cases hr
    | ok d =>
      rw [hd] at hr
      cases hr
      exact ⟨rfl, method_ofCertificates hd⟩

end Runs

end Check

end Orthant
