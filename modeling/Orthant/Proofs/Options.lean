import Mathlib
import Orthant.Options
import Orthant.Proofs.Except

/-! # Options over a history

A history builds options from settings and overrides the last ones, and goes on from the last ones
when a step fails. All options that it brings forth are within their bounds. The limit is compared
the other way round from the tolerance and the budget, so `nan` passes for a limit and for nothing
else.
-/

namespace Orthant

theorem Quantity.below_eq_false_iff {x : Quantity} {r : ℚ} :
    x.below r = false ↔ x.atLeast r = true ∨ x = .double .nan := by
  have hnone : x.compare? r = none ↔ x = .double .nan := by
    rcases x with _ | _ | _ | (_ | _ | _ | _) <;> simp [compare?]
  unfold below atLeast
  rcases h : x.compare? r with _ | (_ | _ | _)
  · simp [hnone.mp h]
  all_goals simp [← hnone, h]

namespace Options

namespace Draft

variable {d d' : Draft} {settings : List Setting} {k : String}

/-- The value that a keyword names. -/
def get (d : Draft) : String → Option Value
  | "tol" => some d.tol
  | "seed" => some d.seed
  | "max_triangulations" => some d.limit
  | "time_budget" => some d.budget
  | "prefer_refined_interval" => some d.preferRefined
  | "verbose" => some d.verbose
  | _ => none

theorem get_of_set {v : Value} (h : d.set (k, v) = .ok d') (k' : String) :
    d'.get k' = if k' = k then some v else d.get k' := by
  unfold set at h
  split at h
  case h_7 => cases h
  all_goals
    rename_i heq
    cases heq
    cases h
    split
    case isTrue h => rw [h]; rfl
    case isFalse h =>
      unfold get
      split <;> first | rfl | exact absurd rfl h

theorem get_of_foldlM (h : settings.foldlM set d = .ok d') (k : String) :
    d'.get k = d.get k ∨ ∃ v, (k, v) ∈ settings ∧ d'.get k = some v := by
  apply foldlM_keeps (P := fun d' => d'.get k = d.get k ∨ ∃ v, (k, v) ∈ settings ∧
    d'.get k = some v) _ (.inl rfl) h
  intro b ⟨k', v⟩ hmem b' hb hset
  rw [get_of_set hset]
  split
  case isTrue hk =>
    subst hk
    exact .inr ⟨v, hmem, rfl⟩
  case isFalse => exact hb

theorem get_of_not_mem (h : settings.foldlM set d = .ok d') (hk : k ∉ settings.map Prod.fst) :
    d'.get k = d.get k := by
  rcases get_of_foldlM h k with h | ⟨v, hv, -⟩
  · exact h
  · exact absurd (List.mem_map_of_mem hv) hk

theorem get_of_mem (hnodup : (settings.map Prod.fst).Nodup) (h : settings.foldlM set d = .ok d') :
    ∀ s ∈ settings, d'.get s.1 = some s.2 := by
  induction settings generalizing d with
  | nil => simp
  | cons s settings ih =>
    obtain ⟨hs, hnodup⟩ := List.nodup_cons.mp hnodup
    obtain ⟨b, hb, h⟩ := bind_eq_ok.mp h
    rintro t (_ | ⟨_, ht⟩)
    · rw [get_of_not_mem h hs, get_of_set hb, if_pos rfl]
    · exact ih hnodup h t ht

end Draft

/-- The bounds of checked options: `nan` is no tolerance and no budget, but it is a limit. -/
structure Bounded (o : Options) : Prop where
  tol : o.tol.atLeast 0 = true
  limit : o.limit.atLeast 1 = true ∨ o.limit = .double .nan
  budget : ∀ b, o.budget = some b → b.above 0 = true

theorem standard_bounded : standard.Bounded where
  tol := by decide +kernel
  limit := .inl (by decide +kernel)
  budget := by
    rintro _ ⟨⟩
    decide +kernel

namespace Draft

variable {v : Value} {x : Quantity} {b : Option Quantity} {d : Draft} {o : Options}

theorem quantity_eq_ok : quantity v = .ok x ↔ v = .real x := by
  cases v <;> simp [quantity, fail]

theorem checkTolerance_eq_ok : checkTolerance v = .ok x ↔ v = .real x ∧ x.atLeast 0 = true := by
  refine bind_eq_ok.trans ?_
  simp only [quantity_eq_ok]
  constructor
  · rintro ⟨y, rfl, h⟩
    split at h
    case isTrue hy => cases h; exact ⟨rfl, hy⟩
    case isFalse => cases h
  · rintro ⟨rfl, hx⟩
    exact ⟨x, rfl, if_pos hx⟩

theorem checkLimit_eq_ok : checkLimit v = .ok x ↔
    v = .real x ∧ (x.atLeast 1 = true ∨ x = .double .nan) := by
  refine bind_eq_ok.trans ?_
  simp only [quantity_eq_ok, ← Quantity.below_eq_false_iff]
  constructor
  · rintro ⟨y, rfl, h⟩
    split at h
    case isTrue => cases h
    case isFalse hy => cases h; exact ⟨rfl, eq_false_of_ne_true hy⟩
  · rintro ⟨rfl, hx⟩
    exact ⟨x, rfl, if_neg (ne_true_of_eq_false hx)⟩

theorem checkBudget_eq_ok : checkBudget v = .ok b ↔
    v = b.elim .absent .real ∧ ∀ x, b = some x → x.above 0 = true := by
  unfold checkBudget
  split
  case h_1 => cases b <;> simp
  case h_2 hv =>
    refine bind_eq_ok.trans ?_
    simp only [quantity_eq_ok]
    constructor
    · rintro ⟨y, rfl, h⟩
      split at h
      case isTrue hy => cases h; simpa using hy
      case isFalse => cases h
    · rintro ⟨rfl, hb⟩
      cases b with
      | none => exact absurd rfl hv
      | some x => exact ⟨x, rfl, if_pos (hb x rfl)⟩

/-- A check returns the options that it was given, and only within their bounds. -/
theorem check_eq_ok : d.check = .ok o ↔ o.draft = d ∧ o.Bounded := by
  constructor
  · intro h
    obtain ⟨tol, htol, h⟩ := bind_eq_ok.mp h
    obtain ⟨limit, hlimit, h⟩ := bind_eq_ok.mp h
    obtain ⟨budget, hbudget, h⟩ := bind_eq_ok.mp h
    cases h
    obtain ⟨htol, htol'⟩ := checkTolerance_eq_ok.mp htol
    obtain ⟨hlimit, hlimit'⟩ := checkLimit_eq_ok.mp hlimit
    obtain ⟨hbudget, hbudget'⟩ := checkBudget_eq_ok.mp hbudget
    constructor
    · simp only [draft, ← htol, ← hlimit, ← hbudget]
    · exact ⟨htol', hlimit', hbudget'⟩
  · rintro ⟨rfl, hbound⟩
    apply bind_eq_ok.mpr
    use o.tol, checkTolerance_eq_ok.mpr ⟨rfl, hbound.tol⟩
    apply bind_eq_ok.mpr
    use o.limit, checkLimit_eq_ok.mpr ⟨rfl, hbound.limit⟩
    apply bind_eq_ok.mpr
    exact ⟨o.budget, checkBudget_eq_ok.mpr ⟨rfl, hbound.budget⟩, rfl⟩

end Draft

theorem override_eq_ok {o o' : Options} {settings : List Setting} :
    o.override settings = .ok o' ↔
      settings.foldlM Draft.set o.draft = .ok o'.draft ∧ o'.Bounded := by
  refine bind_eq_ok.trans ?_
  simp only [Draft.check_eq_ok]
  constructor
  · rintro ⟨d, hd, rfl, hbound⟩
    exact ⟨hd, hbound⟩
  · rintro ⟨hd, hbound⟩
    exact ⟨o'.draft, hd, rfl, hbound⟩

/-- Options are built anew, or the last ones are overridden. -/
inductive Step
  | build (settings : List Setting)
  | override (settings : List Setting)

namespace Step

def settings : Step → List Setting
  | build settings => settings
  | override settings => settings

/-- The options that keep what the step does not name. -/
def base (last : Options) : Step → Options
  | build _ => standard
  | override _ => last

def outcome (last : Options) : Step → Except Error Options
  | build settings => ofSettings settings
  | override settings => last.override settings

/-- The options after a step: a failing one leaves the last ones. -/
def next (last : Options) (s : Step) : Options := (s.outcome last).toOption.getD last

variable {last o : Options} {s : Step}

theorem outcome_eq (last : Options) (s : Step) :
    s.outcome last = (s.base last).override s.settings := by
  cases s <;> rfl

theorem next_of_ok (h : s.outcome last = .ok o) : s.next last = o := by
  simp [next, h, Except.toOption]

theorem next_of_error {e : Error} (h : s.outcome last = .error e) : s.next last = last := by
  simp [next, h, Except.toOption]

theorem bounded_of_outcome (h : s.outcome last = .ok o) : o.Bounded :=
  (override_eq_ok.mp (outcome_eq last s ▸ h)).2

theorem get_of_outcome (h : s.outcome last = .ok o) :
    (∀ k ∉ s.settings.map Prod.fst, o.draft.get k = (s.base last).draft.get k) ∧
    ((s.settings.map Prod.fst).Nodup → ∀ kv ∈ s.settings, o.draft.get kv.1 = some kv.2) := by
  rw [outcome_eq, override_eq_ok] at h
  exact ⟨fun _ hk => Draft.get_of_not_mem h.1 hk, fun hnodup => Draft.get_of_mem hnodup h.1⟩

theorem limit_ne_nan (h : s.outcome last = .ok o) (hlast : last.limit ≠ .double .nan)
    (hgives : ("max_triangulations", .real (.double .nan)) ∉ s.settings) :
    o.limit ≠ .double .nan := by
  intro hnan
  have hget : o.draft.get "max_triangulations" = some (.real (.double .nan)) := by
    rw [← hnan]; rfl
  rw [outcome_eq, override_eq_ok] at h
  rcases Draft.get_of_foldlM h.1 "max_triangulations" with hkept | ⟨v, hv, hgiven⟩
  · have hbase : (s.base last).limit = .double .nan := by
      injection hkept.symm.trans hget with hbase
      injection hbase
    cases s with
    | build => cases hbase
    | override => exact hlast hbase
  · rw [hget] at hgiven
    cases hgiven
    exact hgives hv

end Step

def outcomesFrom (last : Options) : List Step → List (Except Error Options)
  | [] => []
  | s :: steps => s.outcome last :: outcomesFrom (s.next last) steps

/-- The outcomes of a history, which starts from the standard options. -/
def outcomes (steps : List Step) : List (Except Error Options) := outcomesFrom standard steps

/-- The options that some steps leave. -/
def after (last : Options) (steps : List Step) : Options := steps.foldl Step.next last

theorem outcomesFrom_getElem? {steps : List Step} {i : ℕ} {s : Step} (last : Options)
    (hs : steps[i]? = some s) :
    (outcomesFrom last steps)[i]? = some (s.outcome (after last (steps.take i))) := by
  induction steps generalizing last i with
  | nil => simp at hs
  | cons t steps ih =>
    cases i with
    | zero =>
      obtain rfl : t = s := by simpa using hs
      rfl
    | succ i => exact ih (t.next last) (by simpa using hs)

theorem after_limit_ne_nan {last : Options} {steps : List Step}
    (hlast : last.limit ≠ .double .nan)
    (hgives : ∀ s ∈ steps, ("max_triangulations", .real (.double .nan)) ∉ s.settings) :
    (after last steps).limit ≠ .double .nan := by
  induction steps generalizing last with
  | nil => exact hlast
  | cons s steps ih =>
    obtain ⟨hs, hsteps⟩ := List.forall_mem_cons.mp hgives
    apply ih _ hsteps
    cases h : s.outcome last with
    | ok o => rw [Step.next_of_ok h]; exact Step.limit_ne_nan h hlast hs
    | error e => rw [Step.next_of_error h]; exact hlast

/-- Each step of a history starts from the options that the steps before it leave. Those that it
brings forth are within their bounds and differ from the old ones only in what the step names; a
failing step leaves the old ones. Unless a step so far gives `nan` for the limit, the limit is at
least one. -/
theorem outcomes_keep_bounds (steps : List Step) (i : ℕ) (s : Step) (hs : steps[i]? = some s) :
    let last := after standard (steps.take i)
    (outcomes steps)[i]? = some (s.outcome last) ∧
    (∀ e, s.outcome last = .error e → after standard (steps.take (i + 1)) = last) ∧
    ∀ o, s.outcome last = .ok o → after standard (steps.take (i + 1)) = o ∧ o.Bounded ∧
      (∀ k ∉ s.settings.map Prod.fst, o.draft.get k = (s.base last).draft.get k) ∧
      ((s.settings.map Prod.fst).Nodup → ∀ kv ∈ s.settings, o.draft.get kv.1 = some kv.2) ∧
      ((∀ t ∈ steps.take (i + 1), ("max_triangulations", .real (.double .nan)) ∉ t.settings) →
        o.limit.atLeast 1 = true) := by
  intro last
  have hnext : after standard (steps.take (i + 1)) = s.next last := by
    simp [after, last, List.take_add_one, hs]
  refine ⟨outcomesFrom_getElem? standard hs, fun e he => ?_, fun o ho => ?_⟩
  · rw [hnext, Step.next_of_error he]
  obtain ⟨hkept, hgiven⟩ := Step.get_of_outcome ho
  refine ⟨hnext.trans (Step.next_of_ok ho), Step.bounded_of_outcome ho, hkept, hgiven, ?_⟩
  intro hgives
  have hnan := after_limit_ne_nan (show standard.limit ≠ .double .nan by simp [standard]) hgives
  rw [hnext, Step.next_of_ok ho] at hnan
  exact (Step.bounded_of_outcome ho).limit.resolve_right hnan

/-- The first step gives `nan` for the tolerance and fails, the second one drops the budget. -/
def unboundedBudget : List Step :=
  [.build [("tol", .real (.double .nan))], .override [("time_budget", .absent)]]

theorem outcomes_keep_bounds_unboundedBudget :
    ∃ o, (outcomes unboundedBudget)[1]? = some (.ok o) ∧ o.Bounded ∧ o.limit.atLeast 1 = true ∧
      o.draft.get "tol" = standard.draft.get "tol" := by
  have hfail : (Step.build [("tol", .real (.double .nan))]).outcome standard =
      .error (.toleranceNegative (.double .nan)) := rfl
  have hlast : after standard (unboundedBudget.take 1) = standard := Step.next_of_error hfail
  have hok : standard.override [("time_budget", .absent)] = .ok { standard with budget := none } :=
    override_eq_ok.mpr ⟨rfl, standard_bounded.tol, standard_bounded.limit, nofun⟩
  obtain ⟨hat, -, hout⟩ := outcomes_keep_bounds unboundedBudget 1 _ rfl
  rw [hlast] at hat hout
  obtain ⟨-, hbound, hkept, -, hlimit⟩ := hout _ hok
  refine ⟨_, hat.trans (congrArg some hok), hbound, hlimit ?_, hkept "tol" ?_⟩
  · simp [unboundedBudget, Step.settings]
  · simp [Step.settings]

/-- Options whose limit is not at least one: no limit is reached. -/
theorem history_limit_nan :
    ∃ o, history [[("max_triangulations", .real (.double .nan))]] = [.ok o] ∧
      o.limit.atLeast 1 = false := by
  have hok : standard.override [("max_triangulations", .real (.double .nan))] =
      .ok { standard with limit := .double .nan } :=
    override_eq_ok.mpr ⟨rfl, standard_bounded.tol, .inr rfl, standard_bounded.budget⟩
  refine ⟨{ standard with limit := .double .nan }, ?_, rfl⟩
  rw [history, historyFrom, hok]
  rfl

end Options

end Orthant
