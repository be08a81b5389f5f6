import Mathlib
import Orthant.Proofs.Except
import Orthant.Solver.Client

/-! # Runs of a client

Work is described by what holds before it and of what it returns. A client with an engine that answers
reaches the certification of a system that can be handed over, whatever its session has seen before.
-/

namespace Orthant

/-! ## Work that returns -/

namespace Work

variable {σ α β : Type} {P P' : World σ → Prop} {Q : α → World σ → Prop} {R : β → World σ → Prop}

/-- In every world with `P` the work returns, with `Q` of what it returns and of the world it
leaves. -/
def Returns (P : World σ → Prop) (a : Work σ α) (Q : α → World σ → Prop) : Prop :=
  ∀ w, P w → ∃ x v, StateT.run (m := Id) (ExceptT.run a) w = (.ok x, v) ∧ Q x v

theorem Returns.bind {a : Work σ α} {f : α → Work σ β} (ha : Returns P a Q)
    (hf : ∀ x, Returns (Q x) (f x) R) : Returns P (a >>= f) R := by
  intro w hw
  obtain ⟨x, v, hrun, hx⟩ := ha w hw
  obtain ⟨y, u, hrun', hy⟩ := hf x v hx
  refine ⟨y, u, ?_, hy⟩
  rw [ExceptT.run_bind, StateT.run_bind, hrun]
  exact hrun'

theorem returns_pure (x : α) : Returns P (pure x : Work σ α) fun y w => y = x ∧ P w :=
  fun w hw => ⟨x, w, rfl, rfl, hw⟩

theorem returns_memory : Returns P (memory : Work σ σ) fun x w => x = w.memory ∧ P w :=
  fun w hw => ⟨w.memory, w, rfl, rfl, hw⟩

theorem returns_update {f : σ → σ} (h : ∀ w, P w → P' { w with memory := f w.memory }) :
    Returns P (update f) fun _ => P' :=
  fun w hw => ⟨(), { w with memory := f w.memory }, rfl, h w hw⟩

theorem returns_ofExcept {r : Except Error α} {x : α} (h : r = .ok x) :
    Returns P (ofExcept r) fun y w => y = x ∧ P w := by
  intro w hw
  refine ⟨x, w, ?_, rfl, hw⟩
  rw [h]
  rfl

/-- In every world with `P` the outcome of the work is `r`. -/
def Ends (P : World σ → Prop) (a : Work σ α) (r : Except Error α) : Prop :=
  ∀ w, P w → (StateT.run (m := Id) (ExceptT.run a) w).1 = r

theorem Returns.ends_bind {a : Work σ α} {f : α → Work σ β} {r : Except Error β}
    (ha : Returns P a Q) (hf : ∀ x, Ends (Q x) (f x) r) : Ends P (a >>= f) r := by
  intro w hw
  obtain ⟨x, v, hrun, hx⟩ := ha w hw
  rw [ExceptT.run_bind, StateT.run_bind, hrun]
  exact hf x v hx

end Work

/-! ## An engine that answers -/

/-- The engine raises nothing and certifies with some entries. -/
structure Engine.Answers (engine : Engine) (entries : List Entry) : Prop where
  load : ∀ es, engine.load es = none
  system : ∀ es, engine.system es = none
  certify : ∀ es, engine.certify es = .ok entries

namespace Client

open Work

variable {engine : Engine} {entries : List Entry} {s : EquationSystem}

def IsAttached (w : World Connection) : Prop := w.memory.client.attached = true

theorem returns_send (e : Event) : Returns IsAttached (send e) fun _ => IsAttached :=
  returns_update fun _ hw => hw

theorem returns_events : Returns IsAttached events fun _ => IsAttached :=
  fun w hw => ⟨w.memory.session.events, w, rfl, hw⟩

theorem returns_setReady : Returns IsAttached setReady fun _ => IsAttached :=
  returns_update fun _ hw => hw

theorem returns_define (h : engine.Answers entries) :
    Returns IsAttached (define engine) fun _ => IsAttached := by
  unfold define
  apply (returns_send _).bind
  intro _
  apply returns_events.bind
  intro es
  rw [h.load es]
  apply (returns_send _).bind
  intro _
  exact returns_send _

theorem returns_connect (h : engine.Answers entries) :
    Returns IsAttached (connect engine) fun _ => IsAttached := by
  unfold connect
  apply returns_memory.bind
  rintro c w ⟨rfl, hw⟩
  have hattached : ¬ (!w.memory.client.attached) = true := by rw [hw]; decide
  rw [if_neg hattached]
  split
  case isTrue => exact ⟨(), w, rfl, hw⟩
  case isFalse =>
    refine (returns_send .ask).bind (fun _ => ?_) w hw
    dsimp only
    split
    case isTrue => exact (returns_define h).bind fun _ => returns_setReady
    case isFalse => exact returns_setReady

theorem returns_sendSystem (h : engine.Answers entries) {flat : List (List Int × List Double)}
    (hflat : s.flat = .ok flat) :
    Returns IsAttached (sendSystem engine s) fun _ => IsAttached := by
  unfold sendSystem
  apply (returns_ofExcept hflat).bind
  rintro equations w ⟨rfl, hw⟩
  refine (returns_send _).bind (fun _ => ?_) w hw
  apply returns_events.bind
  intro es
  rw [h.system es]
  exact fun w hw => ⟨(), w, rfl, hw⟩

theorem readSolutions_list (solutions : List Solution) :
    readSolutions (solutions.map fun z => .list (z.map Value.complex)) = .ok solutions := by
  unfold readSolutions
  apply mapM_map_eq_ok
  intro z
  exact mapM_map_eq_ok (f := Value.toComplex) (g := Value.complex) (fun _ => rfl) z

/-- Certification of a system without parameters ends with the certificates of the entries, or with the
failure to read one of them. -/
theorem certify_eq (h : engine.Answers entries) (hs : s.parameters = [])
    {flat : List (List Int × List Double)} (hflat : s.flat = .ok flat) {c : Connection}
    (hc : c.client.attached = true) (solutions : List Solution) :
    ((certify engine s solutions).runFrom c).1 = entries.mapM readEntry := by
  suffices hends : Ends IsAttached (certify engine s solutions) (entries.mapM readEntry) from
    hends ⟨[], c⟩ hc
  unfold certify certifyValues
  have hparameters : ¬ (!s.parameters.isEmpty) = true := by rw [hs]; decide
  dsimp only
  rw [if_neg hparameters]
  apply (returns_connect h).ends_bind
  intro _
  apply (returns_sendSystem h hflat).ends_bind
  intro _
  apply (returns_ofExcept (readSolutions_list solutions)).ends_bind
  rintro given w ⟨rfl, hw⟩
  refine (returns_send _).ends_bind (fun _ => ?_) w hw
  apply returns_events.ends_bind
  intro es
  rw [h.certify es]
  exact (returns_pure entries).ends_bind fun _ w hw => by rw [hw.1]; rfl

end Client

end Orthant
