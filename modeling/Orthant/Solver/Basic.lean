import Orthant.Decision.Certificate
import Orthant.EquationSystem.Basic
import Orthant.Journal

/-! # Certified solvers

A solver finds the isolated solutions of a system, from scratch or along a homotopy, and certifies
solutions. Both may fail; what the solver remembers and what it has reported stay.
-/

namespace Orthant

abbrev Solution := List Complex

/-- What a solver remembers, with all that has been reported. -/
structure World (σ : Type) where
  log : Log
  memory : σ

/-- Work that may fail and leaves a world either way. -/
abbrev Work (σ : Type) := ExceptT Error (StateM (World σ))

namespace Work

variable {σ τ α : Type}

def report (r : Record) : Work σ Unit := modify fun w => { w with log := w.log ++ [r] }

def ofExcept (r : Except Error α) : Work σ α := ExceptT.mk (pure r)

def ofLogged (r : Log × Except Error α) : Work σ α := do
  modify fun w => { w with log := w.log ++ r.1 }
  ofExcept r.2

def memory : Work σ σ := do return (← get).memory

def update (f : σ → σ) : Work σ Unit := modify fun w => { w with memory := f w.memory }

/-- The outcome, the log and the memory after work on some memory. -/
def runFrom (a : Work σ α) (memory : σ) : Except Error α × World σ :=
  StateT.run (m := Id) (ExceptT.run a) ⟨[], memory⟩

def zoom (part : σ → τ) (put : τ → σ → σ) (a : Work τ α) : Work σ α := ExceptT.mk fun w =>
  let (r, v) := StateT.run (m := Id) (ExceptT.run a) ⟨w.log, part w.memory⟩
  (r, ⟨v.log, put v.memory w.memory⟩)

end Work

/-- Where paths start: the solutions at the start parameters, and the parameters at the end. -/
structure Start where
  solutions : List (List Double)
  parameters : List Double
  target : List Double

structure Solver (σ : Type) where
  /-- Solutions of a system; with a start, those to which its paths lead. -/
  solve : EquationSystem → Option Start → Value → Work σ (List Solution)
  /-- One certificate for each solution of a system without parameters. -/
  certify : EquationSystem → List Solution → Work σ (List Certificate)

/-- A request that a solver got. -/
inductive Call
  | solve (system : EquationSystem) (start : Option Start) (seed : Value)
  | certify (system : EquationSystem) (solutions : List Solution)

namespace Solver

variable {σ : Type}

def beside {α : Type} (a : Work σ α) : Work (List Call × σ) α :=
  a.zoom Prod.snd fun m both => (both.1, m)

def note (c : Call) : Work (List Call × σ) Unit := Work.update fun m => (m.1 ++ [c], m.2)

/-- The same solver with a list of the requests it got. -/
def traced (s : Solver σ) : Solver (List Call × σ) where
  solve system start seed := do
    note (.solve system start seed)
    beside (s.solve system start seed)
  certify system solutions := do
    note (.certify system solutions)
    beside (s.certify system solutions)

/-- A solver that gives the same two outcomes at every request. -/
def constant (solutions : Except Error (List Solution))
    (certificates : Except Error (List Certificate)) : Solver Unit where
  solve _ _ _ := Work.ofExcept solutions
  certify _ _ := Work.ofExcept certificates

end Solver

end Orthant
