import Mathlib
import Orthant.Solver.Basic

/-! # What work leads to

Work in a world has an outcome and leaves a world. The laws here say how the two come about for each way to
put work together, so that a run can be followed step by step, whether it returns or fails.
-/

namespace Orthant

namespace Work

variable {σ τ α β : Type}

/-- The outcome of work in a world, and the world that it leaves. -/
def runIn (a : Work σ α) (w : World σ) : Except Error α × World σ :=
  StateT.run (m := Id) (ExceptT.run a) w

theorem runFrom_eq (a : Work σ α) (m : σ) : a.runFrom m = a.runIn ⟨[], m⟩ := rfl

section Laws

variable {a : Work σ α} {f : α → Work σ β} {w v : World σ} {x : α} {e : Error}

theorem runIn_bind_of_ok (h : a.runIn w = (.ok x, v)) : (a >>= f).runIn w = (f x).runIn v := by
  unfold runIn at h ⊢
  rw [ExceptT.run_bind, StateT.run_bind, h]
  rfl

theorem runIn_bind_of_error (h : a.runIn w = (.error e, v)) : (a >>= f).runIn w = (.error e, v) := by
  unfold runIn at h ⊢
  rw [ExceptT.run_bind, StateT.run_bind, h]
  rfl

@[simp] theorem runIn_ofExcept (r : Except Error α) :
    (ofExcept r : Work σ α).runIn w = (r, w) := rfl

@[simp] theorem runIn_memory : (memory : Work σ σ).runIn w = (.ok w.memory, w) := rfl

end Laws

end Work

/-! ## The list of requests -/

namespace Solver

variable {σ : Type} (solver : Solver σ) (calls : List Call) (w : World σ)

end Solver

end Orthant
