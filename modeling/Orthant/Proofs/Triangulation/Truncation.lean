import Mathlib
import Orthant.Proofs.Triangulation.Ending

/-! # Bounds truncate a search

Bounds are looked at before a triangulation is handed out and at no other time, so a search with
bounds hands out what the search without them does, up to the first number that the bounds refuse.
-/

namespace Orthant

theorem Quantity.below_int (k : ℤ) (r : ℚ) : (Quantity.int k).below r = true ↔ (k : ℚ) < r := by
  simp only [below, compare?, beq_iff_eq, Option.some.injEq]
  split
  case isTrue h => simp [h]
  case isFalse h => split <;> simp [h]

theorem Quantity.below_mono {x : Quantity} {r r' : ℚ} (h : x.below r = true) (hr : r ≤ r') :
    x.below r' = true := by
  have hlt : ∀ q : ℚ, (if q < r then Ordering.lt else if r < q then .gt else .eq) = .lt →
      (if q < r' then Ordering.lt else if r' < q then .gt else .eq) = .lt := by
    intro q hq
    have hqr : q < r := by
      by_contra hge
      rw [if_neg hge] at hq
      split at hq <;> cases hq
    exact if_pos (hqr.trans_le hr)
  simp only [below, beq_iff_eq] at h ⊢
  cases x with
  | bool b => exact congrArg some (hlt _ (Option.some.inj h))
  | int n => exact congrArg some (hlt _ (Option.some.inj h))
  | rational q => exact congrArg some (hlt _ (Option.some.inj h))
  | double x =>
    cases x with
    | nan => cases h
    | infinite s => exact h
    | negZero => exact congrArg some (hlt _ (Option.some.inj h))
    | finite q => exact congrArg some (hlt _ (Option.some.inj h))

namespace Bounds

variable {limit budget : Option Quantity} {clock : Clock} {i : ℕ}

/-- The bounds with a limit and a budget where they are given. -/
def of (limit budget : Option Quantity) : Bounds :=
  ⟨limit.elim .absent .real, budget.elim .absent .real⟩

/-- The number is above the limit, or more time than the budget has passed at its reading. -/
def Exceeded (limit budget : Option Quantity) (clock : Clock) (i : ℕ) : Prop :=
  (∃ l ∈ limit, l.below i = true) ∨ ∃ b ∈ budget, b.below (clock i - clock 0) = true

theorem refuse_none (clock : Clock) (i : ℕ) : Bounds.none.refuse clock i = .none := rfl

theorem refuse_of_limit {l : Quantity} (hl : l ∈ limit) (h : l.below i = true) :
    (of limit budget).refuse clock i = some (.limitReached l) := by
  obtain rfl := Option.mem_def.mp hl
  exact if_pos (by exact_mod_cast h)

theorem refuse_of_not_limit (h : ∀ l ∈ limit, l.below i = false) :
    (of limit budget).refuse clock i = (of limit budget).late clock i := by
  cases limit with
  | none => rfl
  | some l =>
    have hl : ¬ l.below ((i : ℤ) : ℚ) = true := by
      rw [Int.cast_natCast, h l rfl]
      exact Bool.false_ne_true
    exact if_neg hl

theorem refuse_of_budget {b : Quantity} (h : ∀ l ∈ limit, l.below i = false) (hb : b ∈ budget)
    (hlate : b.below (clock i - clock 0) = true) :
    (of limit budget).refuse clock i = some (.timeExhausted b) := by
  rw [refuse_of_not_limit h]
  obtain rfl := Option.mem_def.mp hb
  exact if_pos hlate

theorem refuse_of_not_exceeded (h : ¬ Exceeded limit budget clock i) :
    (of limit budget).refuse clock i = .none := by
  rw [Exceeded, not_or] at h
  rw [refuse_of_not_limit fun l hl => by
    by_contra hbelow
    exact h.1 ⟨l, hl, by simpa using hbelow⟩]
  cases budget with
  | none => rfl
  | some b =>
    have hb : ¬ b.below (clock i - clock 0) = true := fun hbelow => h.2 ⟨b, rfl, hbelow⟩
    exact if_neg hb

end Bounds

namespace Configuration

variable {c : Configuration} {l : Quantity}

/-! ## Failures of flips -/

theorem form_ne_limitReached (σ : Cell) (j : ℕ) : c.form σ j ≠ .error (.limitReached l) := by
  intro h
  rcases bind_eq_error.mp h with h | ⟨_, -, h⟩
  · rw [barycentric] at h
    split at h <;> cases h
  · dsimp only at h
    split at h <;> cases h

theorem containing_ne_limitReached (j : ℕ) (t : Triangulation) :
    c.containing j t ≠ .error (.limitReached l) := by
  induction t with
  | nil => simp [containing]
  | cons σ t ih =>
    intro h
    rcases bind_eq_error.mp h with h | ⟨_, -, h⟩
    · rw [barycentric] at h
      split at h <;> cases h
    · split at h
      · cases h
      · exact ih h

theorem walls_ne_limitReached (t : Triangulation) : c.walls t ≠ .error (.limitReached l) := by
  intro h
  rcases bind_eq_error.mp h with h | ⟨_, -, h⟩
  · refine foldlM_ne_error (fun forms r _ h => ?_) h
    rw [addRidge] at h
    split at h
    · rcases bind_eq_error.mp h with h | ⟨_, -, h⟩
      · exact form_ne_limitReached _ _ h
      · cases h
    · cases h
  · refine foldlM_ne_error (fun forms j _ h => ?_) h
    rw [addUnused] at h
    split at h
    · cases h
    · rcases bind_eq_error.mp h with h | ⟨_, -, h⟩
      · exact containing_ne_limitReached _ _ h
      · rcases bind_eq_error.mp h with h | ⟨_, -, h⟩
        · exact form_ne_limitReached _ _ h
        · cases h

theorem neighbours_ne_limitReached (t : Triangulation) (p : Programs) :
    (c.neighbours t p).2 ≠ some (.limitReached l) := by
  rw [neighbours]
  split
  case h_1 e he =>
    intro h
    exact walls_ne_limitReached t (he.trans (congrArg _ (Option.some.inj h)))
  case h_2 forms _ =>
    induction forms.zipIdx with
    | nil => simp [acrossAll]
    | cons q walls ih =>
      rw [acrossAll]
      split
      case h_1 e he =>
        intro h
        obtain rfl := Option.some.inj h
        rw [across] at he
        split at he
        · cases he
        · rcases bind_eq_error.mp he with he | ⟨_, -, he⟩
          · exact walls_ne_limitReached _ he
          · split at he <;> cases he
      case h_2 => exact ih

end Configuration

namespace Search

open Orthant.Configuration

variable {c : Configuration} {p : Programs} {s : Search} {clock clock' : Clock} {b : Bounds}

/-! ## One step -/

theorem count_expand {s' : Search} (h : s.expand c p = .ok s') : s'.count = s.count := by
  have hfold : ∀ (ts : List Triangulation) (s : Search),
      (ts.foldl enqueue s).count = s.count := by
    intro ts
    induction ts with
    | nil => exact fun s => rfl
    | cons t ts ih =>
      intro s
      rw [List.foldl_cons, ih]
      rcases s.enqueue_cases t with ⟨-, h⟩ | ⟨-, h⟩ <;> rw [h]
  rw [expand] at h
  split at h
  · cases h; rfl
  · split at h
    · cases h
      exact hfold _ _
    · cases h

theorem expand_ne_limitReached {l : Quantity} : s.expand c p ≠ .error (.limitReached l) := by
  rw [expand]
  split
  · simp
  case h_2 t _ =>
    split
    · simp
    case h_2 e he =>
      intro h
      obtain rfl := Except.error.inj h
      exact neighbours_ne_limitReached t p (congrArg Prod.snd he)

/-- The bounds are looked at after all else: where the search without them hands a triangulation
out, they may refuse its number. -/
theorem next_of_bounds (s : Search) (b : Bounds) (clock clock' : Clock) :
    (∃ t rest, s.next c .none clock' p = .found t rest ∧ rest.count = s.count + 1 ∧
      (b.refuse clock (s.count + 1) = none → s.next c b clock p = .found t rest) ∧
      ∀ e, b.refuse clock (s.count + 1) = some e → s.next c b clock p = .failed e) ∨
    ((∀ t rest, s.next c .none clock' p ≠ .found t rest) ∧
      s.next c b clock p = s.next c .none clock' p) := by
  rw [next, next]
  cases he : s.expand c p with
  | error e => exact .inr ⟨by simp, rfl⟩
  | ok s' =>
    have hcount := count_expand he
    cases hq : s'.queue with
    | nil => exact .inr ⟨by simp [hq], by simp [hq]⟩
    | cons t queue =>
      refine .inl ⟨t, { s' with queue := queue, count := s'.count + 1, pending := some t },
        ?_, ?_, fun hok => ?_, fun e hno => ?_⟩
      · simp [hq, Bounds.refuse_none]
      · simp [hcount]
      · simp [hq, hcount, hok]
      · simp [hq, hcount, hno]

/-! ## The whole run -/

theorem run_of_not_refused {fuel : ℕ}
    (h : ∀ m < (s.run c .none clock' fuel p).1.length, b.refuse clock (s.count + m + 1) = none) :
    s.run c b clock fuel p = s.run c .none clock' fuel p := by
  induction fuel generalizing s with
  | zero => rfl
  | succ fuel ih =>
    rw [run, run]
    rw [run] at h
    rcases s.next_of_bounds (c := c) (p := p) b clock clock' with
      ⟨t, rest, hnone, hcount, hok, -⟩ | ⟨hne, hb⟩
    · simp only [hnone, List.length_cons] at h
      rw [hnone, hok (h 0 (by omega))]
      have hrest := ih (s := rest) fun m hm => by
        rw [hcount, show s.count + 1 + m = s.count + (m + 1) by omega]
        exact h (m + 1) (by omega)
      simp only [hrest]
    · rw [hb]
      cases hn : s.next c .none clock' p with
      | finished n => rfl
      | failed e => rfl
      | found t rest => exact absurd hn (hne t rest)

theorem run_of_refused {fuel n : ℕ} {e : Error} (hn : n < (s.run c .none clock' fuel p).1.length)
    (hlt : ∀ m < n, b.refuse clock (s.count + m + 1) = none)
    (he : b.refuse clock (s.count + n + 1) = some e) :
    s.run c b clock fuel p = ((s.run c .none clock' fuel p).1.take n, .failed e) := by
  induction fuel generalizing s n with
  | zero => simp [run] at hn
  | succ fuel ih =>
    rw [run, run]
    rw [run] at hn
    rcases s.next_of_bounds (c := c) (p := p) b clock clock' with
      ⟨t, rest, hnone, hcount, hok, hno⟩ | ⟨hne, -⟩
    · simp only [hnone, List.length_cons] at hn
      cases n with
      | zero =>
        rw [hno e he]
        simp
      | succ n =>
        rw [hnone, hok (hlt 0 (by omega))]
        have hrest := ih (s := rest) (n := n) (by omega)
          (fun m hm => by
            rw [hcount, show s.count + 1 + m = s.count + (m + 1) by omega]
            exact hlt (m + 1) (by omega))
          (by rw [hcount, show s.count + 1 + n = s.count + (n + 1) by omega, he])
        simp only [hrest, List.take_succ_cons]
    · cases hnext : s.next c .none clock' p with
      | finished n => simp [hnext] at hn
      | failed e => simp [hnext] at hn
      | found t rest => exact absurd hnext (hne t rest)

theorem run_ne_limitReached {fuel : ℕ} {l : Quantity} :
    (s.run c .none clock fuel p).2 ≠ .failed (.limitReached l) := by
  induction fuel generalizing s with
  | zero => simp [run]
  | succ fuel ih =>
    rw [run]
    cases hnext : s.next c .none clock p with
    | finished n => simp
    | found t rest => exact ih
    | failed e =>
      intro h
      obtain rfl := Ending.failed.inj h
      rw [next] at hnext
      split at hnext
      case h_1 he => exact expand_ne_limitReached (he.trans (congrArg _ (Progress.failed.inj hnext)))
      case h_2 =>
        split at hnext
        · cases hnext
        · rw [Bounds.refuse_none] at hnext
          cases hnext

section Start

variable {limit budget : Option Quantity} {fuel i : ℕ} {S T : List Triangulation × Ending}
  (hs : s.count = 0) (hS : s.run c .none clock' fuel p = S)
  (hT : s.run c (.of limit budget) clock fuel p = T)

include hs hS hT

theorem run_of_not_exceeded
    (h : ∀ i, 1 ≤ i → i ≤ S.1.length → ¬ Bounds.Exceeded limit budget clock i) : T = S := by
  subst hS hT
  apply run_of_not_refused
  intro m hm
  rw [hs, zero_add]
  exact Bounds.refuse_of_not_exceeded (h (m + 1) (by omega) hm)

theorem run_of_first_exceeded
    (hi : IsLeast { i | 1 ≤ i ∧ Bounds.Exceeded limit budget clock i } i) (hle : i ≤ S.1.length) :
    T.1 = S.1.take (i - 1) ∧
      (∀ l ∈ limit, l.below i = true → T.2 = .failed (.limitReached l)) ∧
      ((∀ l ∈ limit, l.below i = false) → ∃ b ∈ budget, T.2 = .failed (.timeExhausted b)) := by
  subst hS hT
  obtain ⟨⟨hpos, hex⟩, hleast⟩ := hi
  have hcut : ∀ e, (Bounds.of limit budget).refuse clock i = some e →
      s.run c (.of limit budget) clock fuel p =
        ((s.run c .none clock' fuel p).1.take (i - 1), .failed e) := by
    intro e he
    apply run_of_refused (by omega)
    · intro m hm
      rw [hs, zero_add]
      apply Bounds.refuse_of_not_exceeded
      intro hm'
      have := hleast ⟨by omega, hm'⟩
      omega
    · rw [hs, zero_add, show i - 1 + 1 = i by omega, he]
  by_cases hlimit : ∃ l ∈ limit, l.below i = true
  · obtain ⟨l, hl, hbelow⟩ := hlimit
    rw [hcut _ (Bounds.refuse_of_limit hl hbelow)]
    refine ⟨rfl, fun l' hl' _ => ?_, fun hno => ?_⟩
    · rw [Option.mem_unique hl hl']
    · rw [hno l hl] at hbelow
      cases hbelow
  · have hno : ∀ l ∈ limit, l.below i = false := fun l hl => by
      by_contra hbelow
      exact hlimit ⟨l, hl, by simpa using hbelow⟩
    obtain ⟨b, hb, hlate⟩ := hex.resolve_left hlimit
    rw [hcut _ (Bounds.refuse_of_budget hno hb hlate)]
    refine ⟨rfl, fun l hl hbelow => ?_, fun _ => ⟨b, hb, rfl⟩⟩
    rw [hno l hl] at hbelow
    cases hbelow

theorem exists_limitReached_iff (hbudget : budget = none) (hne : S.1 ≠ []) :
    (∃ l, T.2 = .failed (.limitReached l)) ↔ ∃ l ∈ limit, l.below S.1.length = true := by
  subst hbudget
  constructor
  · rintro ⟨l, hl⟩
    by_contra hno
    push Not at hno
    have hTS : T = S := run_of_not_exceeded hs hS hT fun i _ hi hex => by
      rcases hex with ⟨l, hl, hbelow⟩ | ⟨_, hb, -⟩
      · exact hno l hl (Quantity.below_mono hbelow (by exact_mod_cast hi))
      · cases hb
    rw [hTS, ← hS] at hl
    exact run_ne_limitReached hl
  · rintro ⟨l, hl, hbelow⟩
    classical
    have hex : ∃ i, 1 ≤ i ∧ Bounds.Exceeded limit none clock i :=
      ⟨_, List.length_pos_iff.mpr hne, .inl ⟨l, hl, hbelow⟩⟩
    have hi : IsLeast { i | 1 ≤ i ∧ Bounds.Exceeded limit none clock i } (Nat.find hex) :=
      ⟨Nat.find_spec hex, fun j hj => Nat.find_min' hex hj⟩
    have hle : Nat.find hex ≤ S.1.length :=
      Nat.find_min' hex ⟨List.length_pos_iff.mpr hne, .inl ⟨l, hl, hbelow⟩⟩
    obtain ⟨-, hlimit, -⟩ := run_of_first_exceeded hs hS hT hi hle
    rcases (Nat.find_spec hex).2 with ⟨l', hl', hbelow'⟩ | ⟨_, hb, -⟩
    · exact ⟨l', hlimit l' hl' hbelow'⟩
    · cases hb

end Start

theorem run_start_ne_nil (t : Triangulation) {fuel : ℕ} (hfuel : 0 < fuel) :
    ((Search.start t).run c .none clock fuel p).1 ≠ [] := by
  obtain ⟨fuel, rfl⟩ := Nat.exists_eq_add_of_lt hfuel
  simp [run, next, expand, start, Bounds.refuse_none]

/-- Bounds truncate the search from points. Let `S` be the run without bounds and `T` the run with
them. At the first number that exceeds a bound, if `S` goes so far, `T` stops with what `S` handed out
before; the limit is reported before the budget. If no number within `S` exceeds a bound, `T` is `S`.
So without a budget the limit is reported when `S` goes beyond it. With enough fuel `S` is the whole
sequence. -/
theorem run_truncated_by_bounds {points : List (List ℤ)} {seed : Except Error ℤ}
    {facets : Polytope.FacetProgram} (h : Search.ofPoints points seed p.hull facets = .ok (c, s))
    (limit budget : Option Quantity) (clock clock' : Clock) {fuel : ℕ} (hfuel : 0 < fuel)
    {S T : List Triangulation × Ending} (hS : s.run c .none clock' fuel p = S)
    (hT : s.run c (.of limit budget) clock fuel p = T) :
    (∀ i, IsLeast { i | 1 ≤ i ∧ Bounds.Exceeded limit budget clock i } i → i ≤ S.1.length →
      T.1 = S.1.take (i - 1) ∧
      (∀ l ∈ limit, l.below i = true → T.2 = .failed (.limitReached l)) ∧
      ((∀ l ∈ limit, l.below i = false) → ∃ b ∈ budget, T.2 = .failed (.timeExhausted b))) ∧
    ((∀ i, 1 ≤ i → i ≤ S.1.length → ¬ Bounds.Exceeded limit budget clock i) → T = S) ∧
    (budget = none →
      ((∃ l, T.2 = .failed (.limitReached l)) ↔ ∃ l ∈ limit, l.below S.1.length = true)) ∧
    (c.IsFull → (∀ l ∈ facets c.dim c.points, ∀ i ∈ l, i < c.size) →
      c.FacetsFit ∨ p.hull = proposeCells → c.searchFuel ≤ fuel → S.2 ≠ .paused) := by
  obtain ⟨-, -, hfs, n, t, -, rfl⟩ := ofPoints_eq_ok h
  refine ⟨fun i hi hle => run_of_first_exceeded rfl hS hT hi hle,
    run_of_not_exceeded rfl hS hT, fun hbudget => ?_, fun hc hrange hhull henough => ?_⟩
  · exact exists_limitReached_iff rfl hS hT hbudget (hS ▸ run_start_ne_nil t hfuel)
  · obtain ⟨t', ht', he⟩ := exists_start h hc <| hhull.imp_left fun hfit =>
      (hc.supported (fun _ => hrange) hfit hfs).oneSided
    rw [← hS, he]
    exact run_ne_paused hc ht' henough

/-- One triangulation of the square is handed out when the limit is one, and both when it is two. -/
theorem run_truncated_by_bounds_wideSquare :
    Search.ofPoints wideSquare.points (.ok 0) = .ok (wideSquare, .start falling) ∧
      ((Search.start falling).run wideSquare .none (fun _ => 0) 3).1 = [falling, rising] ∧
      ((Search.start falling).run wideSquare (.of (some (.int 1)) none) (fun _ => 0) 3).1 =
        [falling] ∧
      (∃ l, ((Search.start falling).run wideSquare (.of (some (.int 1)) none) (fun _ => 0) 3).2 =
        .failed (.limitReached l)) ∧
      (Search.start falling).run wideSquare (.of (some (.int 2)) none) (fun _ => 0) 3 =
        ([falling, rising], .finished 2) := by
  have hS := run_wideSquare fun _ => 0
  obtain ⟨hcut, -, hlimit, -⟩ := run_truncated_by_bounds (p := .exact) ofPoints_wideSquare
    (some (.int 1)) none (fun _ => 0) (fun _ => 0) three_pos hS rfl
  obtain ⟨-, hall, -⟩ := run_truncated_by_bounds (p := .exact) ofPoints_wideSquare
    (some (.int 2)) none (fun _ => 0) (fun _ => 0) three_pos hS rfl
  have hexceeded : ∀ k : ℤ, ∀ i, Bounds.Exceeded (some (.int k)) none (fun _ => 0) i ↔ k < i := by
    intro k i
    constructor
    · rintro (⟨l, hl, hbelow⟩ | ⟨_, hb, -⟩)
      · obtain rfl := Option.mem_some_iff.mp hl
        exact_mod_cast (Quantity.below_int k i).mp hbelow
      · cases hb
    · exact fun hlt => .inl ⟨_, rfl, (Quantity.below_int k i).mpr (by exact_mod_cast hlt)⟩
  have hleast : IsLeast { i | 1 ≤ i ∧ Bounds.Exceeded (some (.int 1)) none (fun _ => 0) i } 2 := by
    refine ⟨⟨by decide, (hexceeded 1 2).mpr (by decide)⟩, fun j hj => ?_⟩
    have := (hexceeded 1 j).mp hj.2
    omega
  refine ⟨ofPoints_wideSquare, by rw [hS], (hcut 2 hleast le_rfl).1,
    (hlimit rfl).mpr ⟨_, rfl, by simp [Quantity.below_int]⟩, hall fun i _ hle => ?_⟩
  rw [hexceeded]
  exact not_lt.mpr (by exact_mod_cast hle)

end Search

end Orthant
