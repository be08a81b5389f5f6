import Mathlib
import Orthant.Proofs.Solver.Request

/-! # Failures of the engine

A request ends where the engine raises something first. What the engine raises when it is asked for an
answer is reported as a failure of the engine, whatever it is. What it raises when it builds a system is
reported as it is.
-/

namespace Orthant

/-! ## Errors of the engine -/

/-- The errors that say that the engine failed, or that it could not be used. -/
def Error.IsOfEngine : Error → Prop
  | engineMissing | engineNotLoaded _ | engineFailed _ _ | engineReported _ | boxNotFinite _ => True
  | _ => False

namespace Failure

theorem isOfEngine_during (f : Failure) (activity : String) : (f.during activity).IsOfEngine := by
  cases f <;> trivial

theorem isOfEngine_toError (f : Failure) : f.toError.IsOfEngine ↔ ∃ text, f = .engine text := by
  cases f with
  | engine text => exact iff_of_true trivial ⟨text, rfl⟩
  | other kind text => exact iff_of_false id (by simp)

end Failure

/-! ## The way to the engine -/

namespace Connection

variable {engine : Engine} {c : Connection}

/-- The client can make sure of the definitions. -/
structure IsReachable (engine : Engine) (c : Connection) : Prop where
  attached : c.client.attached = true
  loads : c.client.ready = true ∨ c.session.defined = true ∨
    engine.load (c.session.events ++ [Event.ask, .load]) = none

/-- What a client sends to make sure of the definitions. -/
def opening (c : Connection) : List Event :=
  if c.client.ready then [] else if c.session.defined then [.ask] else [Event.ask, .load, .define, .mark]

end Connection

namespace Client

variable {engine : Engine} {r : Request} {c c' : Connection} {x : Except Error Reply}
  {y : Except Error Unit} {equations : List (List Int × List Double)}

theorem Connects.of_reachable (h : Connects engine c y c') (hc : c.IsReachable engine) :
    y = .ok () ∧ c'.session.events = c.session.events ++ c.opening := by
  obtain ⟨hattached, hloads⟩ := hc
  cases h with
  | missing h => rw [hattached] at h; cases h
  | known _ hready => simp [Connection.opening, hready]
  | found _ hready hdefined => simp [Connection.opening, hready, hdefined]
  | notLoaded _ hready hdefined hload => simp [hready, hdefined, hload] at hloads
  | loaded _ hready hdefined => simp [Connection.opening, hready, hdefined]

theorem Serves.exchanges_of_reachable (h : Serves engine r c x c') (hr : ¬ r.IsRefused)
    (hc : c.IsReachable engine) : ∃ d : Connection,
      d.session.events = c.session.events ++ c.opening ∧ Exchanges engine r d x c' := by
  cases h with
  | refused h => exact absurd h hr
  | unconnected _ h => cases (h.of_reachable hc).1
  | connected _ h hexchanges => exact ⟨_, (h.of_reachable hc).2, hexchanges⟩

theorem Exchanges.of_notBuilt {f : Failure} (h : Exchanges engine r c x c')
    (hflat : r.system.flat = .ok equations)
    (hsystem : engine.system (c.session.events ++ [handOver r.system equations]) = some f) :
    x = .error f.toError ∧ c' = c.receiveAll [handOver r.system equations] := by
  cases h with
  | unsent h => cases hflat.symm.trans h
  | notBuilt h hsystem' =>
    obtain rfl := Except.ok.inj (hflat.symm.trans h)
    obtain rfl := Option.some.inj (hsystem.symm.trans hsystem')
    exact ⟨rfl, rfl⟩
  | built h hsystem' =>
    obtain rfl := Except.ok.inj (hflat.symm.trans h)
    cases hsystem.symm.trans hsystem'

theorem Exchanges.of_built (h : Exchanges engine r c x c') (hflat : r.system.flat = .ok equations)
    (hsystem : engine.system (c.session.events ++ [handOver r.system equations]) = none) :
    Asks engine r (c.receiveAll [handOver r.system equations]) x c' := by
  cases h with
  | unsent h => cases hflat.symm.trans h
  | notBuilt h hsystem' =>
    obtain rfl := Except.ok.inj (hflat.symm.trans h)
    cases hsystem.symm.trans hsystem'
  | built h _ hasks =>
    obtain rfl := Except.ok.inj (hflat.symm.trans h)
    exact hasks

theorem Asks.of_failed {q : Event} {f : Failure} (h : Asks engine r c x c') (hq : r.question = .ok q)
    (hanswer : r.answer engine (c.session.events ++ [q]) = .error f) :
    x = .error (f.during r.activity) ∧ c' = c.receiveAll [q] := by
  cases h with
  | unread h => cases hq.symm.trans h
  | failed h hanswer' =>
    obtain rfl := Except.ok.inj (hq.symm.trans h)
    obtain rfl := Except.error.inj (hanswer.symm.trans hanswer')
    exact ⟨rfl, rfl⟩
  | answered h hanswer' =>
    obtain rfl := Except.ok.inj (hq.symm.trans h)
    cases hanswer.symm.trans hanswer'

/-! ## What a failing engine leads to -/

/-- An engine that raises whenever it is given a system, or whenever it is asked for an answer. -/
def raising (system question : Option Failure) : Engine where
  load _ := none
  system _ := system
  solve _ := question.elim (.ok []) .error
  track _ := question.elim (.ok []) .error
  certify _ := question.elim (.ok []) .error

/-- The system `t - 1`. -/
def line : EquationSystem := ⟨["t"], [], [[([1], .one), ([0], .exact (-1))]]⟩

/-- A request that reaches the engine fails as soon as the engine raises something, and nothing more is
sent. What is raised at the question is reported as a failure of the engine. What is raised when the system
is built is reported as it is, so that it is one of the engine only if it said so itself. -/
theorem error_of_raised (hr : ¬ r.IsRefused) (hc : c.IsReachable engine)
    (hflat : r.system.flat = .ok equations) :
    let (outcome, w) := (r.work engine).runFrom c
    let handed := c.session.events ++ c.opening ++ [handOver r.system equations]
    (∀ f, engine.system handed = some f →
      outcome = .error f.toError ∧ w.memory.session.events = handed ∧
        (f.toError.IsOfEngine ↔ ∃ text, f = .engine text)) ∧
      (engine.system handed = none → ∀ q f, r.question = .ok q →
        r.answer engine (handed ++ [q]) = .error f →
        outcome = .error (f.during r.activity) ∧ w.memory.session.events = handed ++ [q] ∧
          (f.during r.activity).IsOfEngine) := by
  have hserves := serves engine r ⟨[], c⟩
  rw [Work.runFrom_eq]
  generalize (r.work engine).runIn ⟨[], c⟩ = run at hserves ⊢
  obtain ⟨outcome, w⟩ := run
  obtain ⟨d, hd, hexchanges⟩ := hserves.exchanges_of_reachable hr hc
  dsimp only at hexchanges ⊢
  rw [← hd]
  refine ⟨fun f hsystem => ?_, fun hsystem q f hq hanswer => ?_⟩
  · obtain ⟨houtcome, hw⟩ := hexchanges.of_notBuilt hflat hsystem
    refine ⟨houtcome, ?_, f.isOfEngine_toError⟩
    rw [hw, Connection.session_receiveAll, Session.events_receiveAll]
  · have hasks := hexchanges.of_built hflat hsystem
    obtain ⟨houtcome, hw⟩ := hasks.of_failed hq (by simpa using hanswer)
    refine ⟨houtcome, ?_, f.isOfEngine_during _⟩
    rw [hw]
    simp

theorem error_of_raised_question : ∃ e,
    (((Request.solve line none .absent).work
      (raising none (some (.other "DomainError" "singular")))).runFrom
        (.start true ⟨false, []⟩)).1 = .error e ∧ e.IsOfEngine := by
  obtain ⟨equations, hflat⟩ : ∃ equations, line.flat = .ok equations := ⟨_, rfl⟩
  have hreachable : (Connection.start true ⟨false, []⟩).IsReachable
      (raising none (some (.other "DomainError" "singular"))) := ⟨rfl, .inr (.inr rfl)⟩
  obtain ⟨houtcome, -, he⟩ := (error_of_raised (r := .solve line none .absent) id hreachable hflat).2
    rfl (.solve 0) (.other "DomainError" "singular") rfl rfl
  exact ⟨_, houtcome, he⟩

/-- The engine raises when the system is built, and the request does not fail with an error of the engine.
-/
theorem raised_of_notBuilt :
    let engine := raising (some (.other "RuntimeError" "sys")) none
    let r : Request := .solve line none .absent
    let c : Connection := .start true ⟨false, []⟩
    ¬ r.IsRefused ∧ c.IsReachable engine ∧ (∃ equations, r.system.flat = .ok equations) ∧
      (∃ q, r.question = .ok q) ∧ (∀ es, engine.system es = some (.other "RuntimeError" "sys")) ∧
      ∃ e, ((r.work engine).runFrom c).1 = .error e ∧ ¬ e.IsOfEngine :=
  ⟨id, ⟨rfl, .inr (.inr rfl)⟩, ⟨_, rfl⟩, ⟨_, rfl⟩, fun _ => rfl, .raised "RuntimeError" "sys", rfl, id⟩

end Client

end Orthant
