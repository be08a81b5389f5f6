import Mathlib
import Orthant.Proofs.Except
import Orthant.Proofs.Solver.Request

/-! # Clients that share a session

Any number of clients take turns on one session. A client remembers that the definitions are there, and the
session has a mark for them. The two agree with what has reached the engine after every turn, so that the
definitions come first, come once, and are made by a later turn when the packages could not be loaded.
-/

namespace Orthant

/-! ## Orderly events -/

namespace Event

/-- The events by which a definition is used. -/
def IsCall : Event → Prop
  | ask | load | define | mark => False
  | system _ _ _ _ | solve _ | track _ _ _ _ | certify _ => True

/-- What an event needs of those before it. The definitions are used when they have been made, and they are
made once, directly after the packages were loaded. -/
def IsDue (engine : Engine) (before : List Event) : Event → Prop
  | ask | load => True
  | define => .define ∉ before ∧ ∃ earlier, before = earlier ++ [.load] ∧ engine.load before = none
  | mark | system _ _ _ _ | solve _ | track _ _ _ _ | certify _ => .define ∈ before

end Event

/-- Each event is due after those before it. -/
inductive Orderly (engine : Engine) : List Event → Prop

  | nil : Orderly engine []

  | concat {es : List Event} {e : Event} : Orderly engine es → e.IsDue engine es →
      Orderly engine (es ++ [e])

section Orders

variable {engine : Engine} {es calls : List Event} {e : Event}

theorem Event.IsCall.isDue (h : e.IsCall) (hdefine : .define ∈ es) : e.IsDue engine es := by
  cases e with
  | ask | load | define | mark => exact h.elim
  | system | solve | track | certify => exact hdefine

namespace Orderly

theorem isDue (h : Orderly engine es) {before after : List Event} (hes : es = before ++ e :: after) :
    e.IsDue engine before := by
  induction h generalizing after with
  | nil => simp at hes
  | @concat es' e' hes' hdue ih =>
    obtain rfl | ⟨after', e'', rfl⟩ := List.eq_nil_or_concat after
    · obtain ⟨rfl, he⟩ := List.append_inj' hes rfl
      obtain rfl := List.singleton_inj.mp he
      exact hdue
    · rw [List.concat_eq_append, ← List.cons_append, ← List.append_assoc] at hes
      exact ih (List.append_inj' hes rfl).1

theorem append_calls (h : Orderly engine es) (hdefine : .define ∈ es)
    (hcalls : ∀ e ∈ calls, e.IsCall) : Orderly engine (es ++ calls) := by
  induction calls generalizing es with
  | nil => rwa [List.append_nil]
  | cons e calls ih =>
    rw [List.append_cons]
    exact ih (h.concat ((hcalls e (by simp)).isDue hdefine)) (by simp [hdefine])
      fun e' he' => hcalls e' (by simp [he'])

theorem count_define_le (h : Orderly engine es) : es.count .define ≤ 1 := by
  induction h with
  | nil => exact Nat.zero_le 1
  | @concat es e hes hdue ih =>
    rw [List.count_append]
    by_cases he : e = .define
    · subst he
      rw [List.count_eq_zero_of_not_mem hdue.1]
      simp
    · simpa [List.count_cons, he] using ih

theorem append_definitions (h : Orderly engine es) (hdefine : .define ∉ es)
    (hload : engine.load (es ++ [Event.ask, .load]) = none) :
    Orderly engine (es ++ [Event.ask, .load, .define, .mark]) := by
  have hloaded : Orderly engine (es ++ [Event.ask, .load]) := by
    simpa using (h.concat (e := .ask) trivial).concat (e := .load) trivial
  have hdefined : Orderly engine (es ++ [Event.ask, .load, .define]) := by
    simpa using hloaded.concat (e := .define) ⟨by simp [hdefine], es ++ [Event.ask], by simp, hload⟩
  have hmark : Event.mark.IsDue engine (es ++ [Event.ask, .load, .define]) := by simp [Event.IsDue]
  simpa using hdefined.concat hmark

end Orderly

end Orders

/-! ## What a request preserves -/

/-- The events of a session are orderly, and its mark is there if and only if the definitions are. -/
structure Session.IsSound (engine : Engine) (s : Session) : Prop where
  orderly : Orderly engine s.events
  defined : s.defined = true ↔ .define ∈ s.events

/-- A client is ready only if the definitions are there. -/
structure Connection.IsSound (engine : Engine) (c : Connection) : Prop where
  session : c.session.IsSound engine
  ready : c.client.ready = true → c.session.defined = true

theorem Connection.IsSound.receive_calls {engine : Engine} {c : Connection} {calls : List Event}
    (h : c.IsSound engine) (hdefined : c.session.defined = true) (hcalls : ∀ e ∈ calls, e.IsCall) :
    (c.receiveAll calls).IsSound engine := by
  have hdefine := h.session.defined.mp hdefined
  refine ⟨⟨?orderly, ?defined⟩, fun _ => Session.defined_receiveAll.mpr (.inl hdefined)⟩
  case orderly =>
    simpa using h.session.orderly.append_calls hdefine hcalls
  case defined =>
    simp [Session.defined_receiveAll, hdefined, hdefine]

namespace Client

section Requests

variable {engine : Engine} {r : Request} {c c' : Connection} {x : Except Error Reply}
  {y : Except Error Unit}

theorem Connects.isSound (h : Connects engine c y c') (hc : c.IsSound engine) :
    c'.IsSound engine := by
  cases h with
  | missing | known => exact hc
  | found _ _ hdefined =>
    have hdefine := hc.session.defined.mp hdefined
    refine ⟨⟨?_, ?_⟩, fun _ => ?_⟩
    · simpa using hc.session.orderly.concat (e := .ask) trivial
    · simp [Session.defined_receiveAll, hdefined, hdefine]
    · simp [Session.defined_receiveAll, hdefined]
  | notLoaded _ hready hdefined =>
    have hdefine : .define ∉ c.session.events := by rw [← hc.session.defined, hdefined]; decide
    refine ⟨⟨?_, ?_⟩, fun h => ?_⟩
    · simpa using (hc.session.orderly.concat (e := .ask) trivial).concat (e := .load) trivial
    · simp [Session.defined_receiveAll, hdefined, hdefine]
    · exact absurd h (by simp [hready])
  | loaded _ _ hdefined hload =>
    have hdefine : .define ∉ c.session.events := by rw [← hc.session.defined, hdefined]; decide
    refine ⟨⟨?_, ?_⟩, fun _ => ?_⟩
    · simpa using hc.session.orderly.append_definitions hdefine hload
    · simp [Session.defined_receiveAll]
    · simp [Session.defined_receiveAll]

theorem Connects.defined (h : Connects engine c (.ok ()) c') (hc : c.IsSound engine) :
    c'.session.defined = true := by
  cases h with
  | known _ hready => exact hc.ready hready
  | found _ _ hdefined => simp [Session.defined_receiveAll, hdefined]
  | loaded => simp [Session.defined_receiveAll]

theorem isCall_of_question {q e : Event} (h : r.question = .ok q) (he : e ∈ [q]) : e.IsCall := by
  obtain rfl := List.mem_singleton.mp he
  rcases r with ⟨_, _ | _, _⟩ | ⟨_, _⟩
  all_goals
    obtain ⟨_, -, hq⟩ := bind_eq_ok.mp h
    obtain rfl := Except.ok.inj hq
    trivial

theorem Asks.exists_calls (h : Asks engine r c x c') :
    ∃ calls, c' = c.receiveAll calls ∧ ∀ e ∈ calls, e.IsCall := by
  cases h with
  | unread => exact ⟨[], rfl, by simp⟩
  | failed hq => exact ⟨_, rfl, fun e => isCall_of_question hq⟩
  | answered hq => exact ⟨_, rfl, fun e => isCall_of_question hq⟩

theorem Exchanges.exists_calls (h : Exchanges engine r c x c') :
    ∃ calls, c' = c.receiveAll calls ∧ ∀ e ∈ calls, e.IsCall := by
  cases h with
  | unsent => exact ⟨[], rfl, by simp⟩
  | notBuilt => exact ⟨_, rfl, by simp [handOver, Event.IsCall]⟩
  | @built equations _ _ _ _ hasks =>
    obtain ⟨calls, rfl, hcalls⟩ := hasks.exists_calls
    refine ⟨handOver r.system equations :: calls, rfl, ?_⟩
    simpa [handOver, Event.IsCall] using hcalls

theorem Serves.isSound (h : Serves engine r c x c') (hc : c.IsSound engine) : c'.IsSound engine := by
  cases h with
  | refused => exact hc
  | unconnected _ hconnects => exact hconnects.isSound hc
  | connected _ hconnects hexchanges =>
    obtain ⟨calls, rfl, hcalls⟩ := hexchanges.exists_calls
    exact (hconnects.isSound hc).receive_calls (hconnects.defined hc) hcalls

theorem Serves.defined (h : Serves engine r c x c') (hc : c.session.defined = true) :
    c'.session.defined = true := by
  have hconnects : ∀ {y c'}, Connects engine c y c' → c'.session.defined = true := by
    intro y c' h
    cases h <;> simp [Session.defined_receiveAll, hc]
  cases h with
  | refused => exact hc
  | unconnected _ h => exact hconnects h
  | connected _ h hexchanges =>
    obtain ⟨calls, rfl, -⟩ := hexchanges.exists_calls
    exact Session.defined_receiveAll.mpr (.inl (hconnects h))

theorem Serves.attached (h : Serves engine r c x c') : c'.client.attached = c.client.attached := by
  have hconnects : ∀ {y c'}, Connects engine c y c' → c'.client.attached = c.client.attached := by
    intro y c' h
    cases h <;> rfl
  cases h with
  | refused => rfl
  | unconnected _ h => exact hconnects h
  | connected _ h hexchanges =>
    obtain ⟨calls, rfl, -⟩ := hexchanges.exists_calls
    rw [Connection.client_receiveAll, hconnects h]

/-! ## What a request does -/

theorem Serves.of_refused (h : Serves engine r c x c') (hr : r.IsRefused) :
    x = .error .parametersLeft ∧ c' = c := by
  cases h with
  | refused => exact ⟨rfl, rfl⟩
  | unconnected hn | connected hn => exact absurd hr hn

theorem Serves.of_detached (h : Serves engine r c x c') (hr : ¬ r.IsRefused)
    (hc : c.client.attached = false) : x = .error .engineMissing ∧ c' = c := by
  have hattached : c.client.attached ≠ true := by rw [hc]; decide
  cases h with
  | refused h => exact absurd h hr
  | unconnected _ hconnects =>
    cases hconnects with
    | missing => exact ⟨rfl, rfl⟩
    | notLoaded h => exact absurd h hattached
  | connected _ hconnects =>
    cases hconnects with
    | known h | found h | loaded h => exact absurd h hattached

/-- Without the mark the packages are loaded. The request fails if this does, and nothing else has happened;
otherwise the definitions are made and marked, and then they are used. -/
theorem Serves.of_undefined (h : Serves engine r c x c') (hr : ¬ r.IsRefused)
    (hattached : c.client.attached = true) (hready : c.client.ready = false)
    (hdefined : c.session.defined = false) :
    match engine.load (c.session.events ++ [Event.ask, .load]) with
    | some f => x = .error (.engineNotLoaded f.text) ∧ c' = c.receiveAll [Event.ask, .load]
    | none => ∃ calls, (∀ e ∈ calls, e.IsCall) ∧
      c' = (c.receiveAll [Event.ask, .load, .define, .mark]).setReady.receiveAll calls := by
  have hn : c.client.attached ≠ false ∧ c.client.ready ≠ true ∧ c.session.defined ≠ true := by
    simp [hattached, hready, hdefined]
  cases h with
  | refused h => exact absurd h hr
  | unconnected _ hconnects =>
    cases hconnects with
    | missing h => exact absurd h hn.1
    | notLoaded _ _ _ hload => rw [hload]; exact ⟨rfl, rfl⟩
  | connected _ hconnects hexchanges =>
    obtain ⟨calls, rfl, hcalls⟩ := hexchanges.exists_calls
    cases hconnects with
    | known _ h => exact absurd h hn.2.1
    | found _ _ h => exact absurd h hn.2.2
    | loaded _ _ _ hload => rw [hload]; exact ⟨calls, hcalls, rfl⟩

theorem Serves.of_defined (h : Serves engine r c x c') (hdefined : c.session.defined = true) :
    ∃ es, c'.session.events = c.session.events ++ es ∧ ∀ e ∈ es, e = .ask ∨ e.IsCall := by
  have hn : c.session.defined ≠ false := by rw [hdefined]; decide
  cases h with
  | refused => exact ⟨[], by simp, by simp⟩
  | unconnected _ hconnects =>
    cases hconnects with
    | missing => exact ⟨[], by simp, by simp⟩
    | notLoaded _ _ h => exact absurd h hn
  | connected _ hconnects hexchanges =>
    obtain ⟨calls, rfl, hcalls⟩ := hexchanges.exists_calls
    cases hconnects with
    | known => exact ⟨calls, by simp, fun e he => .inr (hcalls e he)⟩
    | found =>
      refine ⟨.ask :: calls, by simp, fun e he => ?_⟩
      exact (List.mem_cons.mp he).imp id (hcalls e)
    | loaded _ _ h => exact absurd h hn

end Requests

end Client

/-! ## Turns -/

structure Pool (ι : Type) where
  clients : ι → Client
  session : Session

namespace Pool

variable {ι : Type}

/-- New clients on a new session. -/
def start (attached : ι → Bool) : Pool ι := ⟨fun i => ⟨attached i, false⟩, ⟨false, []⟩⟩

/-- The session is sound, and no client is ready before the definitions are there. -/
structure IsSound (engine : Engine) (p : Pool ι) : Prop where
  session : p.session.IsSound engine
  ready : ∀ i, (p.clients i).ready = true → p.session.defined = true

section Marks

variable {engine : Engine} {p : Pool ι} {attached : ι → Bool}

theorem isSound_start : (start attached).IsSound engine :=
  ⟨⟨.nil, by simp [start]⟩, fun i h => by simp [start] at h⟩

theorem IsSound.ready_eq_false (h : p.IsSound engine) (hdefined : p.session.defined = false) (i : ι) :
    (p.clients i).ready = false := by
  rw [Bool.eq_false_iff]
  intro hready
  rw [h.ready i hready] at hdefined
  cases hdefined

end Marks

variable [DecidableEq ι]

/-- One client serves one request. -/
def step (engine : Engine) (p : Pool ι) (i : ι) (r : Client.Request) :
    Except Error Client.Reply × Pool ι :=
  let (outcome, w) := (r.work engine).runFrom ⟨p.clients i, p.session⟩
  (outcome, ⟨Function.update p.clients i w.memory.client, w.memory.session⟩)

/-- Clients serve requests one after the other. -/
def run (engine : Engine) (p : Pool ι) (turns : List (ι × Client.Request)) : Pool ι :=
  turns.foldl (fun p turn => (p.step engine turn.1 turn.2).2) p

variable {engine : Engine} {p : Pool ι}

theorem exists_serves (engine : Engine) (p : Pool ι) (i : ι) (r : Client.Request) :
    ∃ c, (p.step engine i r).2 = ⟨Function.update p.clients i c.client, c.session⟩ ∧
      Client.Serves engine r ⟨p.clients i, p.session⟩ (p.step engine i r).1 c :=
  ⟨_, rfl, Client.serves engine r ⟨[], ⟨p.clients i, p.session⟩⟩⟩

theorem IsSound.step (h : p.IsSound engine) (i : ι) (r : Client.Request) :
    (p.step engine i r).2.IsSound engine := by
  obtain ⟨c, hstep, hserves⟩ := exists_serves engine p i r
  have hc : c.IsSound engine := hserves.isSound ⟨h.session, h.ready i⟩
  rw [hstep]
  refine ⟨hc.session, fun j hj => ?_⟩
  by_cases hji : j = i
  · subst hji
    exact hc.ready (by simpa using hj)
  · exact hserves.defined (h.ready j (by simpa [hji] using hj))

theorem IsSound.run (h : p.IsSound engine) (turns : List (ι × Client.Request)) :
    (p.run engine turns).IsSound engine := by
  induction turns generalizing p with
  | nil => exact h
  | cons turn turns ih => exact ih (h.step turn.1 turn.2)

theorem attached_step (i j : ι) (r : Client.Request) :
    ((p.step engine i r).2.clients j).attached = (p.clients j).attached := by
  obtain ⟨c, hstep, hserves⟩ := exists_serves engine p i r
  rw [hstep]
  by_cases hji : j = i
  · subst hji
    simpa using hserves.attached
  · simp [hji]

theorem attached_run (turns : List (ι × Client.Request)) (i : ι) :
    ((p.run engine turns).clients i).attached = (p.clients i).attached := by
  induction turns generalizing p with
  | nil => rfl
  | cons turn turns ih => exact ih.trans (attached_step turn.1 i turn.2)

/-! ## What a turn does -/

section Turns

variable {i : ι} {r : Client.Request}

theorem step_of_refused (hr : r.IsRefused) : p.step engine i r = (.error .parametersLeft, p) := by
  obtain ⟨c, hstep, hserves⟩ := exists_serves engine p i r
  obtain ⟨houtcome, rfl⟩ := hserves.of_refused hr
  rw [Function.update_eq_self] at hstep
  exact Prod.ext houtcome hstep

theorem step_of_detached (hr : ¬ r.IsRefused) (hi : (p.clients i).attached = false) :
    p.step engine i r = (.error .engineMissing, p) := by
  obtain ⟨c, hstep, hserves⟩ := exists_serves engine p i r
  obtain ⟨houtcome, rfl⟩ := hserves.of_detached hr hi
  rw [Function.update_eq_self] at hstep
  exact Prod.ext houtcome hstep

/-- When the packages cannot be loaded, the session has this in its events and nothing else changes. -/
theorem step_of_notLoaded (h : p.IsSound engine) (hr : ¬ r.IsRefused)
    (hi : (p.clients i).attached = true) (hdefined : p.session.defined = false) {f : Failure}
    (hload : engine.load (p.session.events ++ [Event.ask, .load]) = some f) :
    p.step engine i r = (.error (.engineNotLoaded f.text),
      ⟨p.clients, false, p.session.events ++ [Event.ask, .load]⟩) := by
  obtain ⟨c, hstep, hserves⟩ := exists_serves engine p i r
  have hserved := hserves.of_undefined hr hi (h.ready_eq_false hdefined i) hdefined
  dsimp only at hserved
  rw [hload] at hserved
  obtain ⟨houtcome, rfl⟩ := hserved
  refine Prod.ext houtcome (hstep.trans ?_)
  simp [Session.receiveAll, Session.receive, hdefined]

/-- When the packages can be loaded, the definitions are made and marked before all else. -/
theorem step_of_loaded (h : p.IsSound engine) (hr : ¬ r.IsRefused)
    (hi : (p.clients i).attached = true) (hdefined : p.session.defined = false)
    (hload : engine.load (p.session.events ++ [Event.ask, .load]) = none) :
    p.session.events ++ [Event.ask, .load, .define, .mark] <+: (p.step engine i r).2.session.events ∧
      (p.step engine i r).2.session.defined = true ∧
        ((p.step engine i r).2.clients i).ready = true := by
  obtain ⟨c, hstep, hserves⟩ := exists_serves engine p i r
  have hserved := hserves.of_undefined hr hi (h.ready_eq_false hdefined i) hdefined
  dsimp only at hserved
  rw [hload] at hserved
  obtain ⟨calls, -, rfl⟩ := hserved
  rw [hstep]
  refine ⟨⟨calls, by simp⟩, by simp [Session.defined_receiveAll], ?_⟩
  simp [Connection.setReady]

theorem step_of_defined (hdefined : p.session.defined = true) :
    ∃ es, (p.step engine i r).2.session.events = p.session.events ++ es ∧
      ∀ e ∈ es, e = .ask ∨ e.IsCall := by
  obtain ⟨c, hstep, hserves⟩ := exists_serves engine p i r
  rw [hstep]
  exact hserves.of_defined hdefined

end Turns

/-- Clients that share a session, after any turns, and in one more turn. Every use of the definitions comes
after they were made; they are made at most once, directly after the packages were loaded; and the marks of
the session and of its clients agree with this. A request that is refused does not reach the engine. As long
as the definitions are missing, every other request loads the packages: it fails if they cannot be loaded,
with no mark set and nothing else sent, and otherwise it makes the definitions and marks them. Afterwards
nothing is loaded or defined. -/
theorem initialization_of_run (engine : Engine) (attached : ι → Bool)
    (turns : List (ι × Client.Request)) (i : ι) (r : Client.Request) :
    let p := (start attached).run engine turns
    let (outcome, p') := p.step engine i r
    (∀ before e after, p.session.events = before ++ e :: after → e.IsCall → .define ∈ before) ∧
      (∀ before after, p.session.events = before ++ .define :: after →
        ∃ earlier, before = earlier ++ [.load] ∧ engine.load before = none) ∧
      p.session.events.count .define ≤ 1 ∧
      (p.session.defined = true ↔ .define ∈ p.session.events) ∧
      (∀ j, (p.clients j).ready = true → p.session.defined = true) ∧
      (r.IsRefused → outcome = .error .parametersLeft ∧ p' = p) ∧
      (¬ r.IsRefused → attached i = false → outcome = .error .engineMissing ∧ p' = p) ∧
      (¬ r.IsRefused → attached i = true → p.session.defined = false →
        match engine.load (p.session.events ++ [Event.ask, .load]) with
        | some f => outcome = .error (.engineNotLoaded f.text) ∧
          p' = ⟨p.clients, false, p.session.events ++ [Event.ask, .load]⟩ ∧ (p.clients i).ready = false
        | none => p.session.events ++ [Event.ask, .load, .define, .mark] <+: p'.session.events ∧
          p'.session.defined = true ∧ (p'.clients i).ready = true) ∧
      (p.session.defined = true → ∃ es, p'.session.events = p.session.events ++ es ∧
        ∀ e ∈ es, e = .ask ∨ e.IsCall) := by
  intro p
  have hp : p.IsSound engine := isSound_start.run turns
  have hattached : (p.clients i).attached = attached i := attached_run turns i
  refine ⟨?calls, ?definitions, hp.session.orderly.count_define_le, hp.session.defined, hp.ready,
    fun hr => Prod.ext_iff.mp (step_of_refused hr),
    fun hr hi => Prod.ext_iff.mp (step_of_detached hr (hattached.trans hi)), ?undefined, step_of_defined⟩
  case calls =>
    intro before e after hevents hcall
    have hdue := hp.session.orderly.isDue hevents
    cases e with
    | ask | load | define | mark => exact hcall.elim
    | system | solve | track | certify => exact hdue
  case definitions => exact fun before after hevents => (hp.session.orderly.isDue hevents).2
  case undefined =>
    intro hr hi hdefined
    have hi := hattached.trans hi
    cases hload : engine.load (p.session.events ++ [Event.ask, .load]) with
    | some f =>
      obtain ⟨houtcome, hpool⟩ := Prod.ext_iff.mp (step_of_notLoaded hp hr hi hdefined hload)
      exact ⟨houtcome, hpool, hp.ready_eq_false hdefined i⟩
    | none => exact step_of_loaded hp hr hi hdefined hload

/-- The packages cannot be loaded at first, and a later client makes the definitions. -/
example :
    let engine : Engine := ⟨fun es => if es.length = 2 then some (.other "ArgumentError" "") else none,
      fun _ => none, fun _ => .ok [], fun _ => .ok [], fun _ => .ok []⟩
    let s : EquationSystem := ⟨["x"], [], []⟩
    ((start fun _ : Fin 2 => true).run engine
      [(0, .solve s none .absent), (1, .certify s []), (0, .solve s none .absent)]).session.events =
      [Event.ask, .load, .ask, .load, .define, .mark, .system ["x"] [] [] [], .certify [],
        .ask, .system ["x"] [] [] [], .solve 0] := by
  decide

end Pool

end Orthant
