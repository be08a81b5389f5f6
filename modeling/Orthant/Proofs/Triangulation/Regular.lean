import Mathlib
import Orthant.Proofs.Triangulation.Heights

/-! # Regular triangulations

The subdivision at a height vector is the list of the lower simplices, and it is given when all of
them are strict. So a triangulation is regular when some heights induce it.
-/

namespace Orthant

open Finset Lifting

def Triangulation.cells (t : Triangulation) : Set (Finset ℕ) := { s | ∃ σ ∈ t, σ.toFinset = s }

namespace Configuration

variable {c : Configuration} {σ τ : Cell} {t t' : Triangulation} {w : Vec}

/-! ## Cells -/

theorem mem_simplices : σ ∈ c.simplices ↔
    σ.Pairwise (· < ·) ∧ σ.length = c.dim + 1 ∧ ∀ i ∈ σ, i < c.size :=
  mem_choices_range

theorem pairwise_simplices (c : Configuration) : c.simplices.Pairwise (· < ·) :=
  choices_pairwise List.pairwise_lt_range _

theorem toFinset_subset (hσ : σ ∈ c.simplices) : σ.toFinset ⊆ c.placeSet := fun i hi =>
  mem_placeSet.mpr ((mem_simplices.mp hσ).2.2 i (List.mem_toFinset.mp hi))

/-- Cells are determined by their sets of places. -/
theorem eq_of_toFinset_eq (hσ : σ ∈ c.simplices) (hτ : τ ∈ c.simplices)
    (h : σ.toFinset = τ.toFinset) : σ = τ := by
  refine List.Pairwise.eq_of_mem_iff (mem_simplices.mp hσ).1 (mem_simplices.mp hτ).1 fun i => ?_
  rw [← List.mem_toFinset, h, List.mem_toFinset]

theorem sort_mem_simplices {K : Type*} [Field K] {s : Finset ℕ} (hs : IsSimplex K (c.vector K) s)
    (hI : s ⊆ c.placeSet) : s.sort ∈ c.simplices := by
  refine mem_simplices.mpr ⟨(sortedLT_sort s).pairwise, ?_, fun i hi => ?_⟩
  · rw [length_sort, hs.card]
    simp
  · exact mem_placeSet.mp (hI ((mem_sort _).mp hi))

/-- Cells in order. -/
structure IsComplex (c : Configuration) (t : Triangulation) : Prop where
  pairwise : t.Pairwise (· < ·)
  mem : ∀ σ ∈ t, σ ∈ c.simplices

theorem IsComplex.mem_cells_iff (ht : c.IsComplex t) (hσ : σ ∈ c.simplices) :
    σ.toFinset ∈ t.cells ↔ σ ∈ t := by
  constructor
  · rintro ⟨τ, hτ, he⟩
    exact eq_of_toFinset_eq (ht.mem τ hτ) hσ he ▸ hτ
  · exact fun h => ⟨σ, h, rfl⟩

theorem IsComplex.ext (ht : c.IsComplex t) (ht' : c.IsComplex t') (h : t.cells = t'.cells) :
    t = t' := by
  refine Cells.ext ht.pairwise ht'.pairwise fun σ => ⟨fun hσ => ?_, fun hσ => ?_⟩
  · exact (ht'.mem_cells_iff (ht.mem σ hσ)).mp (h ▸ ⟨σ, hσ, rfl⟩)
  · exact (ht.mem_cells_iff (ht'.mem σ hσ)).mp (h ▸ ⟨σ, hσ, rfl⟩)

/-! ## Heights above a cell -/

theorem heightsAbove_eq_none (hσ : σ ∈ c.simplices) (h : c.heightsAbove w σ = none) :
    ¬ IsSimplex ℚ (c.vector ℚ) σ.toFinset := by
  obtain ⟨hp, hl, -⟩ := mem_simplices.mp hσ
  exact not_isSimplex_of_inverse hl hp.nodup (by simpa [heightsAbove] using h)

theorem heightsAbove_eq_some (hc : c.IsFull) (hσ : σ.length = c.dim + 1) {hs : List ℚ}
    (h : c.heightsAbove w σ = some hs) : σ.Nodup ∧ IsSimplex ℚ (c.vector ℚ) σ.toFinset ∧
      ∀ x, x ∈ hs ↔ ∃ j ∈ c.placeSet, j ∉ σ.toFinset ∧
        height (c.vector ℚ) σ.toFinset j (entry w) = x := by
  simp only [heightsAbove, Option.map_eq_some_iff] at h
  obtain ⟨inv, hinv, rfl⟩ := h
  refine ⟨nodup_of_inverse hσ hinv, isSimplex_of_inverse hσ hinv, fun x => ?_⟩
  simp only [others, List.mem_map, List.mem_filter, List.mem_range, Bool.not_eq_true',
    ← Bool.not_eq_true, List.contains_iff_mem, mem_placeSet, List.mem_toFinset, and_assoc]
  refine exists_congr fun j => and_congr_right fun hj => and_congr_right fun _ => ?_
  rw [heightBy_eq hσ hc hinv hj]

theorem isLower_iff_heights (hσ : σ.toFinset ⊆ c.placeSet)
    (hs : IsSimplex ℚ (c.vector ℚ) σ.toFinset) {l : List ℚ}
    (hl : ∀ x, x ∈ l ↔ ∃ j ∈ c.placeSet, j ∉ σ.toFinset ∧
      height (c.vector ℚ) σ.toFinset j (entry w) = x) :
    IsLower (c.vector ℚ) c.placeSet (entry w) σ.toFinset ↔ ∀ x ∈ l, 0 ≤ x := by
  constructor
  · intro h x hx
    obtain ⟨j, hj, -, rfl⟩ := (hl x).mp hx
    exact h.height_nonneg j hj
  · exact fun h => hs.isLower hσ fun j hj hjσ => h _ ((hl _).mpr ⟨j, hj, hjσ, rfl⟩)

theorem isStrict_iff_heights (hσ : σ.toFinset ⊆ c.placeSet)
    (hs : IsSimplex ℚ (c.vector ℚ) σ.toFinset) {l : List ℚ}
    (hl : ∀ x, x ∈ l ↔ ∃ j ∈ c.placeSet, j ∉ σ.toFinset ∧
      height (c.vector ℚ) σ.toFinset j (entry w) = x) :
    IsStrict (c.vector ℚ) c.placeSet (entry w) σ.toFinset ↔ ∀ x ∈ l, 0 < x := by
  constructor
  · intro h x hx
    obtain ⟨j, hj, hjσ, rfl⟩ := (hl x).mp hx
    exact h.height_pos j hj hjσ
  · exact fun h => hs.isStrict hσ fun j hj hjσ => h _ ((hl _).mpr ⟨j, hj, hjσ, rfl⟩)

/-- A configuration with a cell that is not degenerate spans its space. -/
theorem isFull_of_inverse (hlen : ∀ p ∈ c.points, p.length = c.dim) (hσ : σ ∈ c.simplices)
    {inv : List Vec} (h : c.inverse σ = some inv) : c.IsFull := by
  refine ⟨hlen, top_unique ?_⟩
  rw [← (isSimplex_of_inverse (mem_simplices.mp hσ).2.1 h).span_eq_top]
  exact Submodule.span_mono (Set.image_mono (coe_subset.mpr (toFinset_subset hσ)))

/-! ## The subdivision -/

open Classical in
theorem lowerCells_eq_some_iff (hc : c.IsFull) {L : List Cell} (hL : ∀ σ ∈ L, σ ∈ c.simplices) :
    c.lowerCells w L = some t ↔
      t = L.filter (fun σ => decide (IsLower (c.vector ℚ) c.placeSet (entry w) σ.toFinset)) ∧
      ∀ σ ∈ L, IsLower (c.vector ℚ) c.placeSet (entry w) σ.toFinset →
        IsStrict (c.vector ℚ) c.placeSet (entry w) σ.toFinset := by
  induction L generalizing t with
  | nil => simp [lowerCells, eq_comm]
  | cons σ L ih =>
    have hσ := hL σ List.mem_cons_self
    have ih := fun {t} => ih (t := t) fun τ hτ => hL τ (List.mem_cons_of_mem _ hτ)
    rw [lowerCells]
    cases hh : c.heightsAbove w σ with
    | none =>
      have hn : ¬ IsLower (c.vector ℚ) c.placeSet (entry w) σ.toFinset :=
        fun h => heightsAbove_eq_none hσ hh h.simplex
      simp [ih, hn]
    | some hs =>
      obtain ⟨-, hsim, hmem⟩ := heightsAbove_eq_some hc (mem_simplices.mp hσ).2.1 hh
      have hlow := isLower_iff_heights (toFinset_subset hσ) hsim hmem
      have hstr := isStrict_iff_heights (toFinset_subset hσ) hsim hmem
      dsimp only
      split
      case isTrue hneg =>
        have hn : ¬ IsLower (c.vector ℚ) c.placeSet (entry w) σ.toFinset := fun h => by
          obtain ⟨x, hx, hx0⟩ := List.any_eq_true.mp hneg
          exact absurd (hlow.mp h x hx) (not_le.mpr (of_decide_eq_true hx0))
        simp [ih, hn]
      case isFalse hneg =>
        have hl : IsLower (c.vector ℚ) c.placeSet (entry w) σ.toFinset := hlow.mpr fun x hx =>
          not_lt.mp fun h0 => hneg (List.any_eq_true.mpr ⟨x, hx, decide_eq_true h0⟩)
        split
        case isTrue hz =>
          have hn : ¬ IsStrict (c.vector ℚ) c.placeSet (entry w) σ.toFinset := fun h => by
            obtain ⟨x, hx, hx0⟩ := List.any_eq_true.mp hz
            exact absurd (hstr.mp h x hx) (by simp [of_decide_eq_true hx0])
          simp [hl, hn]
        case isFalse hz =>
          have hst : IsStrict (c.vector ℚ) c.placeSet (entry w) σ.toFinset := hstr.mpr fun x hx =>
            lt_of_le_of_ne (hlow.mp hl x hx) fun h0 =>
              hz (List.any_eq_true.mpr ⟨x, hx, decide_eq_true h0.symm⟩)
          simp only [Option.map_eq_some_iff, ih, List.filter_cons, hl, decide_true, if_true,
            List.mem_cons, forall_eq_or_imp, hst, true_and, forall_const]
          constructor
          · rintro ⟨_, ⟨rfl, h⟩, rfl⟩
            exact ⟨rfl, h⟩
          · rintro ⟨rfl, h⟩
            exact ⟨_, ⟨rfl, h⟩, rfl⟩

theorem subdivision_eq_some_iff (hc : c.IsFull) : c.subdivision w = some t ↔
    c.IsComplex t ∧ Induces (c.vector ℚ) c.placeSet (entry w) t.cells := by
  classical
  rw [subdivision, lowerCells_eq_some_iff hc fun σ hσ => hσ]
  constructor
  · rintro ⟨rfl, hst⟩
    refine ⟨⟨c.pairwise_simplices.filter _, fun σ hσ => (List.mem_filter.mp hσ).1⟩, ⟨?_, ?_⟩⟩
    · intro s hs
      refine ⟨s.sort, List.mem_filter.mpr ⟨sort_mem_simplices hs.simplex hs.subset, ?_⟩, by simp⟩
      simpa using hs
    · rintro _ ⟨σ, hσ, rfl⟩
      obtain ⟨hσ, hl⟩ := List.mem_filter.mp hσ
      exact hst σ hσ (of_decide_eq_true hl)
  · rintro ⟨ht, hi⟩
    refine ⟨Cells.ext ht.pairwise (c.pairwise_simplices.filter _) fun σ => ?_, fun σ _ hl =>
      hi.strict _ (hi.mem _ hl)⟩
    rw [List.mem_filter, decide_eq_true_iff, hi.isLower_iff]
    exact ⟨fun h => ⟨ht.mem σ h, σ, h, rfl⟩, fun h => (ht.mem_cells_iff h.1).mp h.2⟩

/-- The triangulation is the subdivision at some heights. -/
def IsRegular (c : Configuration) (t : Triangulation) : Prop :=
  ∃ w : Vec, w.length = c.size ∧ c.subdivision w = some t

theorem IsFull.isRegular_iff (hc : c.IsFull) : c.IsRegular t ↔
    c.IsComplex t ∧ ∃ w : ℕ → ℚ, Induces (c.vector ℚ) c.placeSet w t.cells := by
  constructor
  · rintro ⟨w, -, hw⟩
    obtain ⟨ht, hi⟩ := (subdivision_eq_some_iff hc).mp hw
    exact ⟨ht, entry w, hi⟩
  · rintro ⟨ht, w, hi⟩
    refine ⟨(List.range c.size).map w, by simp, (subdivision_eq_some_iff hc).mpr ⟨ht, ?_⟩⟩
    exact hi.congr fun i hi => (entry_map_range w (mem_placeSet.mp hi)).symm

end Configuration

end Orthant
