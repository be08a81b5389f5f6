import Mathlib
import Orthant.Proofs.Triangulation.Search

/-! # How a search ends

A search without bounds that may hand out more triangulations than there are sets of simplices is
never paused: it comes to its end or a flip fails. Looking for the first triangulation that passes a
test goes through the same triangulations in the same order.
-/

namespace Orthant

open Finset Lifting

theorem Configuration.length_le_of_isComplex {c : Configuration} {ts : List Triangulation}
    (hnd : ts.Nodup) (hts : ∀ t ∈ ts, c.IsComplex t) : ts.length ≤ twoPow c.simplices.length := by
  have hinj : Set.InjOn List.toFinset { t | t ∈ ts } := fun t ht t' ht' he =>
    Cells.ext (hts t ht).pairwise (hts t' ht').pairwise fun σ => by
      rw [← List.mem_toFinset, ← List.mem_toFinset, he]
  calc ts.length = (ts.toFinset.image List.toFinset).card := by
        rw [card_image_of_injOn (by simpa using hinj), List.toFinset_card_of_nodup hnd]
    _ ≤ c.simplices.toFinset.powerset.card := card_le_card fun s hs => by
        obtain ⟨t, ht, rfl⟩ := mem_image.mp hs
        refine mem_powerset.mpr fun σ hσ => List.mem_toFinset.mpr ?_
        exact (hts t (List.mem_toFinset.mp ht)).mem σ (List.mem_toFinset.mp hσ)
    _ = 2 ^ c.simplices.toFinset.card := card_powerset _
    _ ≤ twoPow c.simplices.length :=
        Nat.pow_le_pow_right two_pos (List.toFinset_card_le _)

namespace Search

open Orthant.Configuration

variable {c : Configuration} {s : Search} {p : Programs} {b : Bounds} {clock : Clock}

theorem length_of_paused {fuel : ℕ} (h : (s.run c b clock fuel p).2 = .paused) :
    (s.run c b clock fuel p).1.length = fuel := by
  induction fuel generalizing s with
  | zero => rfl
  | succ fuel ih =>
    rw [Search.run] at h ⊢
    split at h
    · cases h
    · cases h
    case h_3 t rest _ => exact congrArg (· + 1) (ih h)

theorem run_ne_paused (hc : c.IsFull) {t : Triangulation} (ht : c.IsRegular t) {fuel : ℕ}
    (hfuel : c.searchFuel ≤ fuel) : ((Search.start t).run c b clock fuel p).2 ≠ .paused := by
  intro h
  have hreg := ((sound_start ht).run hc b clock fuel p).1
  have hnd := (explored_start (c := c) (p := p) t).nodup_run b clock fuel
  have hle := length_le_of_isComplex (c := c) (by simpa using hnd) fun t ht =>
    (hc.isRegular_iff.mp (hreg t ht)).1
  rw [length_of_paused h] at hle
  rw [searchFuel] at hfuel
  omega

/-! ## The first that passes a test -/

variable {α : Type} {test : ℕ → Triangulation → Except Error (Option α)}

theorem firstSome_eq_inl {fuel : ℕ} {a : α}
    (h : s.firstSome c b clock test fuel p = .ok (.inl a)) :
    ∃ t ∈ (s.run c b clock fuel p).1, ∃ k, test k t = .ok (some a) := by
  induction fuel generalizing s with
  | zero => cases h
  | succ fuel ih =>
    rw [firstSome] at h
    rw [Search.run]
    split at h
    · cases h
    · cases h
    case h_3 t rest _ =>
      obtain ⟨found, htest, h⟩ := bind_eq_ok.mp h
      cases found with
      | some a' =>
        cases h
        exact ⟨t, List.mem_cons_self, _, htest⟩
      | none =>
        obtain ⟨t', ht', hk⟩ := ih h
        exact ⟨t', List.mem_cons_of_mem _ ht', hk⟩

theorem firstSome_eq_inr {fuel : ℕ} {e : Ending}
    (h : s.firstSome c b clock test fuel p = .ok (.inr e)) :
    (s.run c b clock fuel p).2 = e ∧
      ∀ t ∈ (s.run c b clock fuel p).1, ∃ k, test k t = .ok none := by
  induction fuel generalizing s with
  | zero =>
    cases h
    exact ⟨rfl, by simp [Search.run]⟩
  | succ fuel ih =>
    rw [firstSome] at h
    rw [Search.run]
    split at h
    case h_1 =>
      cases h
      exact ⟨rfl, by simp⟩
    case h_2 =>
      cases h
      exact ⟨rfl, by simp⟩
    case h_3 t rest _ =>
      obtain ⟨found, htest, h⟩ := bind_eq_ok.mp h
      cases found with
      | some a' => cases h
      | none =>
        obtain ⟨hend, hall⟩ := ih h
        exact ⟨hend, List.forall_mem_cons.mpr ⟨⟨_, htest⟩, hall⟩⟩

end Search

/-! ## Points that do not span -/

namespace Configuration

variable {c : Configuration} {w : Vec} {t : Triangulation}

theorem isFull_of_lowerHull (hlen : ∀ q ∈ c.points, q.length = c.dim) {hull : HullProgram}
    (h : c.lowerHull w hull = some t) : c.IsFull := by
  rw [lowerHull] at h
  split at h
  case isFalse => cases h
  obtain ⟨-, hne, hpos, -⟩ := checkCells_eq_some h
  obtain ⟨σ, hσ⟩ := List.exists_mem_of_ne_nil _ hne
  obtain ⟨-, hl, hlt⟩ := mem_proposedCells hσ
  obtain ⟨hs, habove, -⟩ := hpos σ hσ
  obtain ⟨inv, hinv, -⟩ := Option.map_eq_some_iff.mp habove
  refine ⟨hlen, top_unique ?_⟩
  rw [← (isSimplex_of_inverse hl hinv).span_eq_top]
  refine Submodule.span_mono (Set.image_mono fun i hi => ?_)
  exact mem_placeSet.mpr (hlt i (List.mem_toFinset.mp hi))

variable (hlen : ∀ q ∈ c.points, q.length = c.dim) (hnot : ¬ c.IsFull)

include hlen hnot

theorem subdivision_of_not_isFull (w : Vec) : c.subdivision w = some [] := by
  have hall : ∀ σs : List Cell, (∀ σ ∈ σs, σ ∈ c.simplices) → c.lowerCells w σs = some [] := by
    intro σs hσs
    induction σs with
    | nil => rfl
    | cons σ σs ih =>
      have hnone : c.heightsAbove w σ = none := by
        rw [heightsAbove, Option.map_eq_none_iff]
        by_contra hne
        obtain ⟨inv, hinv⟩ := Option.ne_none_iff_exists'.mp hne
        exact hnot (isFull_of_inverse hlen (hσs σ List.mem_cons_self) hinv)
      rw [lowerCells, hnone]
      exact ih fun τ hτ => hσs τ (List.mem_cons_of_mem _ hτ)
  exact hall _ fun σ hσ => hσ

theorem eq_nil_of_initialFrom {hull : HullProgram} {rng : Twister} {fuel : ℕ}
    (h : c.initialFrom hull rng fuel = .ok t) : t = [] := by
  induction fuel generalizing rng with
  | zero => cases h
  | succ fuel ih =>
    rw [initialFrom] at h
    dsimp only at h
    split at h
    case h_1 ht => exact absurd (isFull_of_lowerHull hlen ht) hnot
    case h_2 =>
      rw [subdivision_of_not_isFull hlen hnot] at h
      exact (Except.ok.inj h).symm

end Configuration

namespace Search

variable {c : Configuration} {p : Configuration.Programs} {clock : Clock} {α : Type}
  {test : ℕ → Triangulation → Except Error (Option α)}

/-- A search that starts without a cell fails after its first step: no cell contains the first
point. -/
theorem firstSome_start_nil (hsize : 0 < c.size) {fuel : ℕ} (hfuel : 2 ≤ fuel)
    (htest : test 1 [] = .ok none) : (Search.start []).firstSome c .none clock test fuel p =
      .ok (.inr (.failed (.notCovered 0))) := by
  obtain ⟨fuel, rfl⟩ := Nat.exists_eq_add_of_le' hfuel
  have hneighbours : c.neighbours [] p = ([], some (.notCovered 0)) := by
    obtain ⟨m, hm⟩ := Nat.exists_eq_add_of_le' hsize
    have hwalls : c.walls [] = .error (.notCovered 0) := by
      rw [Configuration.walls, hm, List.range_succ_eq_map]
      rfl
    rw [Configuration.neighbours, hwalls]
  have hfirst : (Search.start []).next c .none clock p = .found [] ⟨[[]], [], 1, some []⟩ := rfl
  have hsecond : (⟨[[]], [], 1, some []⟩ : Search).next c .none clock p =
      .failed (.notCovered 0) := by
    rw [Search.next, expand]
    simp only [hneighbours]
  rw [firstSome, hfirst]
  simp only [htest]
  change Search.firstSome _ _ _ _ _ (fuel + 1) _ = _
  rw [firstSome, hsecond]

end Search

/-! ## Every simplex is handed out -/

theorem Configuration.IsFull.exists_isRegular {c : Configuration} (hc : c.IsFull) {σ : Cell}
    (hσ : σ ∈ c.simplices) (hs : IsSimplex ℚ (c.vector ℚ) σ.toFinset) :
    ∃ t, c.IsRegular t ∧ σ ∈ t := by
  classical
  obtain ⟨w, T, hw, hT⟩ := hs.exists_induces (toFinset_subset hσ)
  have hcells : Triangulation.cells (c.simplices.filter fun τ => τ.toFinset ∈ T) = T := by
    ext s
    constructor
    · rintro ⟨τ, hτ, rfl⟩
      exact of_decide_eq_true (List.mem_filter.mp hτ).2
    · intro hsT
      have hstrict := hw.strict s hsT
      refine ⟨s.sort, List.mem_filter.mpr ⟨sort_mem_simplices hstrict.simplex hstrict.subset, ?_⟩,
        by simp⟩
      simpa using hsT
  refine ⟨_, hc.isRegular_iff.mpr ⟨⟨c.pairwise_simplices.filter _, fun τ hτ =>
    (List.mem_filter.mp hτ).1⟩, w, hcells ▸ hw⟩, List.mem_filter.mpr ⟨hσ, by simpa using hT⟩⟩

end Orthant
