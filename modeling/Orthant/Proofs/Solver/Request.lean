import Mathlib
import Orthant.Proofs.Solver.Work
import Orthant.Solver.Client

/-! # Requests to a client

A request is served in three parts: the client makes sure that the definitions are there, it hands the
system over, and it asks for the answer. For each part there is a relation with one rule for each way it can
go, and `serves` says that a run follows them. What holds of all runs is then a matter of these rules.
-/

namespace Orthant

/-! ## Sessions -/

namespace Session

variable {s : Session} {es : List Event} {e : Event}

/-- The session after events that reach the engine one after the other. -/
def receiveAll (s : Session) (es : List Event) : Session := es.foldl receive s

@[simp] theorem receiveAll_nil : s.receiveAll [] = s := rfl

@[simp] theorem events_receiveAll : (s.receiveAll es).events = s.events ++ es := by
  induction es generalizing s with
  | nil => simp
  | cons e es ih => rw [receiveAll, List.foldl_cons, ← receiveAll, ih, receive, List.append_assoc]; rfl

theorem defined_receiveAll : (s.receiveAll es).defined = true ↔ s.defined = true ∨ .mark ∈ es := by
  induction es generalizing s with
  | nil => simp
  | cons e es ih =>
    rw [receiveAll, List.foldl_cons, ← receiveAll, ih, receive, List.mem_cons, ← or_assoc]
    simp only [Bool.or_eq_true, beq_iff_eq, eq_comm (a := e)]

end Session

namespace Connection

/-- The connection after events that reach the engine one after the other. -/
def receiveAll (c : Connection) (es : List Event) : Connection :=
  { c with session := c.session.receiveAll es }

def setReady (c : Connection) : Connection := { c with client := { c.client with ready := true } }

variable {c : Connection} {es : List Event}

@[simp] theorem client_receiveAll : (c.receiveAll es).client = c.client := rfl

@[simp] theorem session_receiveAll : (c.receiveAll es).session = c.session.receiveAll es := rfl

@[simp] theorem session_setReady : c.setReady.session = c.session := rfl

end Connection

namespace Client

open Work

/-! ## Requests -/

/-- A request to a client. Solutions that are to be certified are values, which are read once the system has
been handed over. -/
inductive Request
  | solve (system : EquationSystem) (start : Option Start) (seed : Value)
  | certify (system : EquationSystem) (given : List Value)

inductive Reply
  | solutions (zs : List Solution)
  | certificates (cs : List Certificate)

namespace Request

def work (engine : Engine) : Request → Work Connection Reply
  | solve s start seed => do return .solutions (← Client.solve engine s start seed)
  | certify s given => do return .certificates (← certifyValues engine s given)

def system : Request → EquationSystem
  | solve s _ _ => s
  | certify s _ => s

/-- Solutions are not certified on a system that has parameters left. -/
def IsRefused : Request → Prop
  | solve _ _ _ => False
  | certify s _ => s.parameters ≠ []

/-- What the engine is asked for, once the arguments have been read. -/
def question : Request → Except Error Event
  | solve _ none seed => do .ok (.solve (← seedOf seed))
  | solve _ (some start) seed => do
    .ok (.track (start.solutions.map fun p => p.map fun x => (⟨x, .zero⟩ : Complex)) start.parameters
      start.target (← seedOf seed))
  | certify _ given => do .ok (.certify (← readSolutions given))

/-- The activity that a failure of the engine is reported with. -/
def activity : Request → String
  | solve _ none _ => "solve"
  | solve _ (some _) _ => "parameter continuation"
  | certify _ _ => "certify"

/-- What the engine answers after some events, and what the client reads from it. -/
def answer (engine : Engine) (es : List Event) : Request → Except Failure (Except Error Reply)
  | solve _ none _ => (engine.solve es).map fun found => (readSolutions found).map .solutions
  | solve _ (some _) _ => (engine.track es).map fun found => (readSolutions found).map .solutions
  | certify _ _ => (engine.certify es).map fun entries => (entries.mapM readEntry).map .certificates

end Request

/-- The event by which a system is handed over. -/
def handOver (s : EquationSystem) (equations : List (List Int × List Double)) : Event :=
  .system s.unknowns s.parameters (equations.map Prod.fst) (equations.map Prod.snd)

/-! ## The ways of a request -/

section Ways

variable {engine : Engine} {r : Request} {c : Connection}

/-- How a client makes sure that the definitions are there. -/
inductive Connects (engine : Engine) (c : Connection) : Except Error Unit → Connection → Prop

  | missing : c.client.attached = false → Connects engine c (.error .engineMissing) c

  | known : c.client.attached = true → c.client.ready = true → Connects engine c (.ok ()) c

  | found : c.client.attached = true → c.client.ready = false → c.session.defined = true →
      Connects engine c (.ok ()) (c.receiveAll [.ask]).setReady

  | notLoaded {f : Failure} : c.client.attached = true → c.client.ready = false →
      c.session.defined = false → engine.load (c.session.events ++ [Event.ask, .load]) = some f →
      Connects engine c (.error (.engineNotLoaded f.text)) (c.receiveAll [Event.ask, .load])

  | loaded : c.client.attached = true → c.client.ready = false → c.session.defined = false →
      engine.load (c.session.events ++ [Event.ask, .load]) = none →
      Connects engine c (.ok ()) (c.receiveAll [Event.ask, .load, .define, .mark]).setReady

theorem runIn_send (e : Event) (w : World Connection) :
    (send e).runIn w = (.ok (), ⟨w.log, w.memory.receiveAll [e]⟩) := rfl

theorem runIn_events (w : World Connection) :
    events.runIn w = (.ok w.memory.session.events, w) := rfl

theorem runIn_setReady (w : World Connection) :
    setReady.runIn w = (.ok (), ⟨w.log, w.memory.setReady⟩) := rfl

theorem runIn_define (engine : Engine) (w : World Connection) : (define engine).runIn w =
    match engine.load (w.memory.session.events ++ [.load]) with
    | some f => (.error (.engineNotLoaded f.text), ⟨w.log, w.memory.receiveAll [.load]⟩)
    | none => (.ok (), ⟨w.log, w.memory.receiveAll [.load, .define, .mark]⟩) := by
  unfold define
  rw [runIn_bind_of_ok (runIn_send _ _), runIn_bind_of_ok (runIn_events _)]
  change Work.runIn (match engine.load (w.memory.session.events ++ [.load]) with
    | some f => throw (.engineNotLoaded f.text)
    | none => _) _ = _
  cases engine.load (w.memory.session.events ++ [.load]) <;> rfl

theorem connects (engine : Engine) (w : World Connection) : ∃ x c,
    (connect engine).runIn w = (x, ⟨w.log, c⟩) ∧ Connects engine w.memory x c := by
  unfold connect
  rw [runIn_bind_of_ok runIn_memory]
  cases hattached : w.memory.client.attached with
  | false => exact ⟨_, _, rfl, .missing hattached⟩
  | true =>
    cases hready : w.memory.client.ready with
    | true => exact ⟨_, _, rfl, .known hattached hready⟩
    | false =>
      rw [if_neg (by decide), if_neg (by decide), runIn_bind_of_ok (runIn_send _ _)]
      dsimp only
      cases hdefined : w.memory.session.defined with
      | true =>
        rw [if_neg (by decide), runIn_setReady]
        exact ⟨_, _, rfl, .found hattached hready hdefined⟩
      | false =>
        rw [if_pos (by decide)]
        have hdefine := runIn_define engine ⟨w.log, w.memory.receiveAll [.ask]⟩
        have hevents : (w.memory.receiveAll [.ask]).session.events ++ [.load] =
            w.memory.session.events ++ [Event.ask, .load] := by simp
        dsimp only at hdefine
        rw [hevents] at hdefine
        cases hload : engine.load (w.memory.session.events ++ [Event.ask, .load]) with
        | some f =>
          rw [hload] at hdefine
          rw [runIn_bind_of_error hdefine]
          exact ⟨_, _, rfl, .notLoaded hattached hready hdefined hload⟩
        | none =>
          rw [hload] at hdefine
          rw [runIn_bind_of_ok hdefine, runIn_setReady]
          exact ⟨_, _, rfl, .loaded hattached hready hdefined hload⟩

/-- How a client asks for the answer. -/
inductive Asks (engine : Engine) (r : Request) (c : Connection) :
    Except Error Reply → Connection → Prop

  | unread {e : Error} : r.question = .error e → Asks engine r c (.error e) c

  | failed {q : Event} {f : Failure} : r.question = .ok q →
      r.answer engine (c.session.events ++ [q]) = .error f →
      Asks engine r c (.error (f.during r.activity)) (c.receiveAll [q])

  | answered {q : Event} {x : Except Error Reply} : r.question = .ok q →
      r.answer engine (c.session.events ++ [q]) = .ok x → Asks engine r c x (c.receiveAll [q])

/-- How a connected client hands the system of a request over and goes on. -/
inductive Exchanges (engine : Engine) (r : Request) (c : Connection) :
    Except Error Reply → Connection → Prop

  | unsent {e : Error} : r.system.flat = .error e → Exchanges engine r c (.error e) c

  | notBuilt {equations : List (List Int × List Double)} {f : Failure} :
      r.system.flat = .ok equations →
      engine.system (c.session.events ++ [handOver r.system equations]) = some f →
      Exchanges engine r c (.error f.toError) (c.receiveAll [handOver r.system equations])

  | built {equations : List (List Int × List Double)} {x : Except Error Reply} {c' : Connection} :
      r.system.flat = .ok equations →
      engine.system (c.session.events ++ [handOver r.system equations]) = none →
      Asks engine r (c.receiveAll [handOver r.system equations]) x c' → Exchanges engine r c x c'

/-- How a client serves a request. -/
inductive Serves (engine : Engine) (r : Request) (c : Connection) :
    Except Error Reply → Connection → Prop

  | refused : r.IsRefused → Serves engine r c (.error .parametersLeft) c

  | unconnected {e : Error} {c' : Connection} : ¬ r.IsRefused → Connects engine c (.error e) c' →
      Serves engine r c (.error e) c'

  | connected {x : Except Error Reply} {c' c'' : Connection} : ¬ r.IsRefused →
      Connects engine c (.ok ()) c' → Exchanges engine r c' x c'' → Serves engine r c x c''

theorem runIn_sendSystem_of_error {s : EquationSystem} {e : Error} (h : s.flat = .error e)
    (w : World Connection) : (sendSystem engine s).runIn w = (.error e, w) := by
  unfold sendSystem
  exact runIn_bind_of_error (by rw [runIn_ofExcept, h])

theorem runIn_sendSystem (engine : Engine) {s : EquationSystem}
    {equations : List (List Int × List Double)} (h : s.flat = .ok equations) (w : World Connection) :
    (sendSystem engine s).runIn w =
      (match engine.system (w.memory.session.events ++ [handOver s equations]) with
        | some f => .error f.toError
        | none => .ok (), ⟨w.log, w.memory.receiveAll [handOver s equations]⟩) := by
  have hflat : (Work.ofExcept s.flat : Work Connection _).runIn w = (.ok equations, w) := by
    rw [runIn_ofExcept, h]
  unfold sendSystem
  rw [runIn_bind_of_ok hflat, runIn_bind_of_ok (runIn_send _ _), runIn_bind_of_ok (runIn_events _)]
  change Work.runIn (match engine.system (w.memory.session.events ++ [handOver s equations]) with
    | some f => throw f.toError
    | none => return ()) _ = _
  cases engine.system (w.memory.session.events ++ [handOver s equations]) <;> rfl

theorem asks_of_question {α β : Type} {q : Event} (answer : List Event → Except Failure α)
    (read : α → Except Error β) (reply : β → Reply) (hq : r.question = .ok q)
    (hanswer : ∀ es, r.answer engine es = (answer es).map fun a => (read a).map reply)
    (w : World Connection) : ∃ x, (do
      send q
      let found ← outcome r.activity (answer (← events))
      return reply (← Work.ofExcept (read found)) : Work Connection Reply).runIn w =
        (x, ⟨w.log, w.memory.receiveAll [q]⟩) ∧
      Asks engine r w.memory x (w.memory.receiveAll [q]) := by
  rw [runIn_bind_of_ok (runIn_send _ _), runIn_bind_of_ok (runIn_events _)]
  dsimp only [Connection.session_receiveAll]
  rw [Session.events_receiveAll]
  have hanswer := hanswer (w.memory.session.events ++ [q])
  cases h : answer (w.memory.session.events ++ [q]) with
  | error f =>
    rw [h] at hanswer
    exact ⟨_, runIn_bind_of_error rfl, .failed hq hanswer⟩
  | ok found =>
    rw [h] at hanswer
    refine ⟨(read found).map reply, ?_, .answered hq hanswer⟩
    rw [runIn_bind_of_ok (show (outcome r.activity (.ok found)).runIn _ = (.ok found, _) from rfl)]
    cases read found <;> rfl

theorem asks_of_argument {β : Type} {argument : Except Error β} {event : β → Event}
    (hq : r.question = argument.bind fun b => .ok (event b)) {ask : β → Work Connection Reply}
    (hask : ∀ b, r.question = .ok (event b) → ∀ w, ∃ x log c,
      (ask b).runIn w = (x, ⟨log, c⟩) ∧ Asks engine r w.memory x c) (w : World Connection) :
    ∃ x log c, (Work.ofExcept argument >>= ask).runIn w = (x, ⟨log, c⟩) ∧
      Asks engine r w.memory x c := by
  cases argument with
  | error e => exact ⟨_, _, _, runIn_bind_of_error rfl, .unread hq⟩
  | ok b =>
    rw [runIn_bind_of_ok (runIn_ofExcept _)]
    exact hask b hq w

theorem exists_asks (engine : Engine) (r : Request) (hr : ¬ r.IsRefused) :
    ∃ ask : Work Connection Reply,
      r.work engine = (do connect engine; sendSystem engine r.system; ask) ∧
      ∀ w, ∃ x log c, ask.runIn w = (x, ⟨log, c⟩) ∧ Asks engine r w.memory x c := by
  cases r with
  | solve s start seed =>
    cases start with
    | none =>
      refine ⟨?askSolve, ?_, ?_⟩
      rotate_left
      · simp only [Request.work, solve, bind_assoc]
        rfl
      · refine asks_of_argument rfl fun n hq w => ?_
        obtain ⟨x, hrun, hasks⟩ := asks_of_question engine.solve readSolutions .solutions hq
          (fun es => rfl)
          ⟨w.log ++ [⟨.debug, "julia_oracle", "solving " ++ toString s.equations.length ++
            " equations from scratch"⟩], w.memory⟩
        exact ⟨x, _, _, hrun, hasks⟩
    | some start =>
      refine ⟨?askTrack, ?_, ?_⟩
      rotate_left
      · simp only [Request.work, solve, bind_assoc]
        rfl
      · refine asks_of_argument rfl fun n hq w => ?_
        obtain ⟨x, hrun, hasks⟩ := asks_of_question engine.track readSolutions .solutions hq
          (fun es => rfl)
          ⟨w.log ++ [⟨.debug, "julia_oracle", "tracking " ++ toString start.solutions.length ++
            " start solutions over " ++ toString s.parameters.length ++ " parameters"⟩], w.memory⟩
        exact ⟨x, _, _, hrun, hasks⟩
  | certify s given =>
    have hparameters : ¬ (!s.parameters.isEmpty) = true := by simpa [Request.IsRefused] using hr
    refine ⟨?askCertify, ?_, ?_⟩
    rotate_left
    · simp only [Request.work, certifyValues, if_neg hparameters, bind_assoc]
      rfl
    · refine asks_of_argument rfl fun solutions hq w => ?_
      obtain ⟨x, hrun, hasks⟩ := asks_of_question engine.certify
        (fun entries => entries.mapM readEntry) .certificates hq (fun es => rfl) w
      exact ⟨x, _, _, hrun, hasks⟩

theorem serves (engine : Engine) (r : Request) (w : World Connection) :
    Serves engine r w.memory ((r.work engine).runIn w).1 ((r.work engine).runIn w).2.memory := by
  by_cases hr : r.IsRefused
  · cases r with
    | solve => exact hr.elim
    | certify s given =>
      have hparameters : (!s.parameters.isEmpty) = true := by simpa [Request.IsRefused] using hr
      have hrun : ((Request.certify s given).work engine).runIn w = (.error .parametersLeft, w) := by
        simp only [Request.work, certifyValues, if_pos hparameters]
        rfl
      rw [hrun]
      exact .refused hr
  · obtain ⟨ask, hwork, hask⟩ := exists_asks engine r hr
    obtain ⟨x, c, hconnect, hconnects⟩ := connects engine w
    rw [hwork]
    cases x with
    | error e =>
      rw [runIn_bind_of_error hconnect]
      exact .unconnected hr hconnects
    | ok _ =>
      rw [runIn_bind_of_ok hconnect]
      cases hflat : r.system.flat with
      | error e =>
        rw [runIn_bind_of_error (runIn_sendSystem_of_error hflat _)]
        exact .connected hr hconnects (.unsent hflat)
      | ok equations =>
        have hsend := runIn_sendSystem engine hflat ⟨w.log, c⟩
        cases hsystem : engine.system (c.session.events ++ [handOver r.system equations]) with
        | some f =>
          rw [hsystem] at hsend
          rw [runIn_bind_of_error hsend]
          exact .connected hr hconnects (.notBuilt hflat hsystem)
        | none =>
          rw [hsystem] at hsend
          rw [runIn_bind_of_ok hsend]
          obtain ⟨x, log, c', hrun, hasks⟩ := hask ⟨w.log, c.receiveAll [handOver r.system equations]⟩
          rw [hrun]
          exact .connected hr hconnects (.built hflat hsystem hasks)

end Ways

end Client

end Orthant
