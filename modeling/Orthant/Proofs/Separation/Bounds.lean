import Mathlib
import Orthant.Proofs.Number.Extended
import Orthant.Proofs.Separation.Scan
import Orthant.Proofs.Triangulation.Truncation

/-! # Bounds fail closed

A search with tighter bounds does what the search with looser ones does until one of its own bounds is
exceeded, and then the answer is no. So a yes survives when bounds are loosened, and a no when they
are tightened.
-/

namespace Orthant

namespace Bounds

variable {limit limit' budget budget' : Option Quantity} {clock : Clock} {i : ℕ}

/-- The value of a bound. No bound at all counts as the greatest one. -/
noncomputable def extent (x : Option Quantity) : EReal := x.elim ⊤ Quantity.extended

theorem extent_le_none (x : Option Quantity) : extent x ≤ extent .none := le_top

theorem exists_below_iff {x : Option Quantity} {r : ℚ} :
    (∃ l ∈ x, l.below r = true) ↔ extent x < ((r : ℝ) : EReal) := by
  cases x with
  | none => simp [extent]
  | some l => simp [extent, Quantity.below_iff_extended_lt]

theorem Exceeded.mono (hlimit : extent limit ≤ extent limit')
    (hbudget : extent budget ≤ extent budget') (h : Exceeded limit' budget' clock i) :
    Exceeded limit budget clock i := by
  unfold Exceeded at h ⊢
  rw [exists_below_iff, exists_below_iff] at h ⊢
  rcases h with h | h
  · left
    exact hlimit.trans_lt h
  · right
    exact hbudget.trans_lt h

/-- The errors that bounds bring about. -/
inductive Stops : Error → Prop
  | limit (l : Quantity) : Stops (.limitReached l)
  | budget (b : Quantity) : Stops (.timeExhausted b)

theorem refuse_of_exceeded (h : Exceeded limit budget clock i) :
    ∃ e, Stops e ∧ (of limit budget).refuse clock i = some e := by
  by_cases hlimit : ∃ l ∈ limit, l.below i = true
  · obtain ⟨l, hl, hbelow⟩ := hlimit
    exact ⟨_, .limit l, refuse_of_limit hl hbelow⟩
  · obtain ⟨b, hb, hlate⟩ := h.resolve_left hlimit
    have hno : ∀ l ∈ limit, l.below i = false := by
      intro l hl
      by_contra hbelow
      exact hlimit ⟨l, hl, by simpa using hbelow⟩
    exact ⟨_, .budget b, refuse_of_budget hno hb hlate⟩

end Bounds

open Bounds

/-! ## The search -/

namespace Search

open Orthant.Configuration

variable {c : Configuration} {p : Programs} {limit limit' budget budget' : Option Quantity}

/-- One step under tighter bounds is the step under looser ones, or a bound stops it. -/
theorem next_of_le (hlimit : extent limit ≤ extent limit') (hbudget : extent budget ≤ extent budget')
    (s : Search) (clock : Clock) :
    s.next c (.of limit budget) clock p = s.next c (.of limit' budget') clock p ∨
      ∃ e, Stops e ∧ s.next c (.of limit budget) clock p = .failed e := by
  rcases s.next_of_bounds (c := c) (p := p) (.of limit budget) clock clock with
    ⟨t, rest, hnone, -, hok, hno⟩ | ⟨hne, hnext⟩
  · by_cases hex : Exceeded limit budget clock (s.count + 1)
    · obtain ⟨e, hstops, hrefuse⟩ := refuse_of_exceeded hex
      exact .inr ⟨e, hstops, hno e hrefuse⟩
    · have hex' : ¬ Exceeded limit' budget' clock (s.count + 1) := mt (.mono hlimit hbudget) hex
      rcases s.next_of_bounds (c := c) (p := p) (.of limit' budget') clock clock with
        ⟨t', rest', hnone', -, hok', -⟩ | ⟨hne', -⟩
      · left
        rw [hok (refuse_of_not_exceeded hex), hok' (refuse_of_not_exceeded hex'), ← hnone, ← hnone']
      · exact absurd hnone (hne' t rest)
  · rcases s.next_of_bounds (c := c) (p := p) (.of limit' budget') clock clock with
      ⟨t', rest', hnone', -⟩ | ⟨-, hnext'⟩
    · exact absurd hnone' (hne t' rest')
    · left
      rw [hnext, hnext']

/-- The whole search under tighter bounds answers as under looser ones, or a bound stops it. -/
theorem firstSome_of_le {α : Type} {test : ℕ → Triangulation → Except Error (Option α)}
    (hlimit : extent limit ≤ extent limit') (hbudget : extent budget ≤ extent budget')
    (s : Search) (clock : Clock) (fuel : ℕ) :
    s.firstSome c (.of limit budget) clock test fuel p =
        s.firstSome c (.of limit' budget') clock test fuel p ∨
      ∃ e, Stops e ∧
        s.firstSome c (.of limit budget) clock test fuel p = .ok (.inr (.failed e)) := by
  induction fuel generalizing s with
  | zero => exact .inl rfl
  | succ fuel ih =>
    unfold firstSome
    rcases s.next_of_le (c := c) (p := p) hlimit hbudget clock with hnext | ⟨e, hstops, hnext⟩
    · rw [hnext]
      cases s.next c (.of limit' budget') clock p with
      | finished n => exact .inl rfl
      | failed e => exact .inl rfl
      | found t rest =>
        dsimp only
        cases test rest.count t with
        | error e => exact .inl rfl
        | ok found =>
          cases found with
          | some a => exact .inl rfl
          | none => exact ih rest
    · rw [hnext]
      exact .inr ⟨e, hstops, rfl⟩

end Search

/-! ## The verdict -/

namespace Separation

variable {tol : Value} {verbose : Bool} {clock : Clock} {n : ℕ} {negative : List (List ℤ)}
  {p : Configuration.Programs} {program : CoordinateProgram} {facets : Polytope.FacetProgram}
  {limit limit' budget budget' : Option Quantity}

theorem verdict_of_stops {e : Error} (h : Stops e) (size : ℕ) :
    (verdict verbose size (.ok (.inr (.failed e)))).2 = .ok false := by
  cases h <;> rfl

theorem searchCells_of_le (hlimit : extent limit ≤ extent limit')
    (hbudget : extent budget ≤ extent budget') (positive : List (List ℤ)) :
    let answer b :=
      (searchCells ⟨tol, verbose, b⟩ clock n positive negative p program facets).2
    answer (.of limit budget) = answer (.of limit' budget') ∨
      answer (.of limit budget) = .ok false := by
  unfold searchCells
  dsimp only
  cases Search.ofPoints positive (.ok 0) p.hull facets with
  | error e => exact .inl rfl
  | ok found =>
    obtain ⟨c, s⟩ := found
    dsimp only
    rcases s.firstSome_of_le (c := c) (p := p) hlimit hbudget clock c.searchFuel with
      hsame | ⟨e, hstops, hend⟩
    · left
      rw [hsame]
    · right
      rw [hend, verdict_of_stops hstops]

theorem isNonseparableIn_of_le (hlimit : extent limit ≤ extent limit')
    (hbudget : extent budget ≤ extent budget') (hull : Polytope) :
    let answer b :=
      (isNonseparableIn ⟨tol, verbose, b⟩ clock hull negative p program facets).2
    answer (.of limit budget) = answer (.of limit' budget') ∨
      answer (.of limit budget) = .ok false := by
  unfold isNonseparableIn
  dsimp only
  split
  · exact .inl rfl
  · split
    · exact .inl rfl
    · exact searchCells_of_le hlimit hbudget hull.points
    · exact .inl rfl

theorem isNonseparableGrid_of_le (hlimit : extent limit ≤ extent limit')
    (hbudget : extent budget ≤ extent budget') (positive negative : Except Error Grid) :
    let answer b :=
      (isNonseparableGrid ⟨tol, verbose, b⟩ clock positive negative p program facets).2
    answer (.of limit budget) = answer (.of limit' budget') ∨
      answer (.of limit budget) = .ok false := by
  unfold isNonseparableGrid
  dsimp only
  split
  · exact .inl rfl
  · exact .inl rfl
  case h_3 hull rows _ => exact isNonseparableIn_of_le hlimit hbudget hull

/-- The answer fails closed under bounds, whatever proposes facets, hulls and walls and computes the
coordinates. A yes stays a yes when both bounds are loosened, a no stays a no when both are tightened,
and no bounds turn the no of a search without bounds into a yes. -/
theorem isNonseparableGrid_fails_closed (hlimit : extent limit ≤ extent limit')
    (hbudget : extent budget ≤ extent budget') (tol : Value) (verbose : Bool) (clock : Clock)
    (positive negative : Except Error Grid) (p : Configuration.Programs)
    (program : CoordinateProgram) (facets : Polytope.FacetProgram) :
    let answer b :=
      (isNonseparableGrid ⟨tol, verbose, b⟩ clock positive negative p program facets).2
    (answer (.of limit budget) = .ok true → answer (.of limit' budget') = .ok true) ∧
    (answer (.of limit' budget') = .ok false → answer (.of limit budget) = .ok false) ∧
    (answer .none = .ok false →
      ∀ limit budget, answer (.of limit budget) = .ok false) := by
  intro answer
  refine ⟨fun htrue => ?_, fun hfalse => ?_, fun hfalse limit budget => ?_⟩
  · rcases isNonseparableGrid_of_le hlimit hbudget positive negative with h | h
    · exact h.symm.trans htrue
    · exact absurd (h.symm.trans htrue) (by simp)
  · rcases isNonseparableGrid_of_le hlimit hbudget positive negative with h | h
    · exact h.trans hfalse
    · exact h
  · rcases isNonseparableGrid_of_le (extent_le_none limit) (extent_le_none budget)
      positive negative with h | h
    · exact h.trans hfalse
    · exact h

theorem isNonseparableGrid_fails_closed_wideSquare :
    extent (some (.int 2)) ≤ extent (some (.int 3)) ∧
    (isNonseparableGrid ⟨.real (.rational (1 / 1000000000)), true, .of (some (.int 2)) none⟩
      (fun _ => 0) (.ok ⟨[4, 2], [0, 0, 4, 0, 0, 4, 4, 4]⟩) (.ok ⟨[2, 2], [1, 2, 2, 2]⟩)).2 =
        .ok true ∧
    (isNonseparableGrid ⟨.real (.rational (1 / 1000000000)), true, .of (some (.int 3)) none⟩
      (fun _ => 0) (.ok ⟨[4, 2], [0, 0, 4, 0, 0, 4, 4, 4]⟩) (.ok ⟨[2, 2], [1, 2, 2, 2]⟩)).2 =
        .ok true := by
  have hle : extent (some (.int 2)) ≤ extent (some (.int 3)) := by
    simp only [extent, Option.elim_some, Quantity.extended, EReal.coe_le_coe_iff]
    norm_num
  have htight : (isNonseparableGrid ⟨.real (.rational (1 / 1000000000)), true,
      .of (some (.int 2)) none⟩ (fun _ => 0) (.ok ⟨[4, 2], [0, 0, 4, 0, 0, 4, 4, 4]⟩)
      (.ok ⟨[2, 2], [1, 2, 2, 2]⟩)).2 = .ok true := by
    change (isNonseparable _ _ 2 Configuration.wideSquare.points [[1, 2], [2, 2]]).2 = _
    exact isNonseparable_middle rfl rfl (.inr rfl)
  exact ⟨hle, htight, (isNonseparableGrid_fails_closed hle le_rfl _ _ _ _ _ _ _ _).1 htight⟩

end Separation

end Orthant
