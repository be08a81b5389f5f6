import Mathlib
import Orthant.Proofs.Triangulation.Chamber
import Orthant.Proofs.Triangulation.Hull
import Orthant.Proofs.Triangulation.Search

/-! # Which proposals are accepted

Whatever cells are proposed for the lower hull, those that pass the check are the subdivision. The
check asks for no more than that where no facet was left out: in a subdivision no three cells share
a ridge, and the ridge of one cell only lies on a facet.
-/

namespace Orthant

open Finset Lifting

namespace Configuration

variable {c : Configuration} {t : Triangulation} {σ : Cell} {w : Vec} {k : ℕ}

theorem coord_liftPoint_cast {s : Finset ℕ} (hs : IsSimplex ℚ (c.vector ℚ) s)
    (hI : s ⊆ c.placeSet) (hk : k ∈ s) (p : List ℤ) :
    coord (K := ℝ) (c.vector ℝ) s k (liftPoint c.dim ℝ p) =
      ((coord (K := ℚ) (c.vector ℚ) s k (liftPoint c.dim ℚ p) : ℚ) : ℝ) := by
  have hcast : ∀ (p : List ℤ) r, ((liftPoint c.dim ℚ p r : ℚ) : ℝ) = liftPoint c.dim ℝ p r := by
    intro p r
    simp only [liftPoint]
    split <;> simp
  have hsum : ∑ i ∈ s, ((coord (K := ℚ) (c.vector ℚ) s i (liftPoint c.dim ℚ p) : ℚ) : ℝ) •
      c.vector ℝ i = liftPoint c.dim ℝ p := by
    funext r
    have hr := congrArg (Rat.cast : ℚ → ℝ) (congrFun (hs.sum_coord (liftPoint c.dim ℚ p)) r)
    simp only [Finset.sum_apply, Pi.smul_apply, smul_eq_mul, Rat.cast_sum, Rat.cast_mul,
      vector, hcast] at hr ⊢
    exact hr
  have hs' : IsSimplex ℝ (c.vector ℝ) s := isSimplex_change_field hs hI
  rw [← hsum, map_sum, sum_eq_single_of_mem k hk fun i hi hik => by
    rw [map_smul, hs'.coord_other hi hik, smul_zero], map_smul, hs'.coord_self hk, smul_eq_mul,
    mul_one]

theorem coord_cast {s : Finset ℕ} (hs : IsSimplex ℚ (c.vector ℚ) s) (hI : s ⊆ c.placeSet)
    (hk : k ∈ s) (j : ℕ) : coord (K := ℝ) (c.vector ℝ) s k (c.vector ℝ j) =
      ((coord (K := ℚ) (c.vector ℚ) s k (c.vector ℚ j) : ℚ) : ℝ) :=
  coord_liftPoint_cast hs hI hk (c.pointAt j)

/-- A lattice point is in the hull of a simplex when none of its coordinates is negative. -/
theorem realPoint_mem_hullAt_iff {s : Finset ℕ} (hs : IsSimplex ℚ (c.vector ℚ) s)
    (hI : s ⊆ c.placeSet) (b : List ℤ) : realPoint c.dim b ∈ c.hullAt s ↔
    ∀ i ∈ s, 0 ≤ coord (K := ℚ) (c.vector ℚ) s i (liftPoint c.dim ℚ b) := by
  rw [mem_hullAt_iff_inCone (isSimplex_change_field hs hI), raise_realPoint]
  refine forall₂_congr fun i hi => ?_
  rw [coord_liftPoint_cast hs hI hi, Rat.cast_nonneg]

section Subdivision

variable (ht : c.IsComplex t) (hi : Induces (c.vector ℚ) c.placeSet (entry w) t.cells)

include ht hi

theorem length_sides_le {r : Ridge} (hr : r ∈ t.ridges) : r.2.length ≤ 2 := by
  obtain ⟨ρ, ss⟩ := r
  match ss, hr with
  | [], _ => simp
  | [_], _ => simp
  | [_, _], _ => simp
  | (σ, k) :: (τ, b) :: (υ, d) :: rest, hr =>
    have hnd := ht.nodup_of_mem_ridges hr
    simp only [List.nodup_cons, List.mem_cons, not_or] at hnd
    obtain ⟨⟨hστ, hσυ, -⟩, ⟨hτυ, -⟩, -⟩ := hnd
    obtain ⟨hσ, hk, -⟩ := side_of_mem_ridges hr (s := (σ, k)) (by simp)
    obtain ⟨hτ, -, -⟩ := side_of_mem_ridges hr (s := (τ, b)) (by simp)
    obtain ⟨hυ, -, -⟩ := side_of_mem_ridges hr (s := (υ, d)) (by simp)
    obtain ⟨hbσ, hτ'⟩ :=
      ht.exchange_of_mem_ridges hr (s := (σ, k)) (by simp) (by simp) (Ne.symm hστ)
    obtain ⟨hdσ, hυ'⟩ :=
      ht.exchange_of_mem_ridges hr (s := (σ, k)) (by simp) (by simp) (Ne.symm hσυ)
    have hbd : b = d := (isStrict_of_mem hi hσ).eq_of_ridge (List.mem_toFinset.mpr hk) hbσ hdσ
      (hτ' ▸ isStrict_of_mem hi hτ) (hυ' ▸ (isStrict_of_mem hi hυ).toIsLower)
    subst hbd
    exact absurd (eq_of_toFinset_eq (ht.mem τ hτ) (ht.mem υ hυ) (hτ'.trans hυ'.symm))
      fun he => hτυ (by rw [he])

theorem bounding_of_alone (hc : c.IsFull) (hσ : σ ∈ t) (hk : k ∈ σ)
    (halone : ∀ τ ∈ t, ∀ b ∈ τ, Cells.ridgeOf (τ, b) = Cells.ridgeOf (σ, k) → τ = σ) :
    c.Bounding σ.toFinset k := by
  have hs := isStrict_of_mem hi hσ
  have hkσ : k ∈ σ.toFinset := List.mem_toFinset.mpr hk
  refine ⟨isSimplex_change_field hs.simplex hs.subset, hs.subset, hkσ, fun j hj => ?_⟩
  rw [coord_cast hs.simplex hs.subset hkσ, Rat.cast_nonneg]
  by_contra hneg
  obtain ⟨b, hb, ⟨τ, hτ, he⟩, -⟩ := hi.exists_behind hc.span (c.level_pos ℚ) ⟨σ, hσ, rfl⟩ hkσ hj
    (not_le.mp hneg)
  have hbτ : b ∈ τ := List.mem_toFinset.mp (he ▸ mem_insert_self b _)
  have hτσ := halone τ hτ b hbτ (ridgeOf_eq_of_exchange (ht.mem σ hσ) (ht.mem τ hτ) hb he)
  exact hb (List.mem_toFinset.mpr (hτσ ▸ hbτ))

theorem onHull_of_length_eq_one (hc : c.IsFull) (hfacets : c.HasFacets) {r : Ridge}
    (hr : r ∈ t.ridges) (hone : r.2.length = 1) : c.onHull r.1 = true := by
  obtain ⟨ρ, ss⟩ := r
  obtain ⟨⟨σ, k⟩, hss'⟩ := List.length_eq_one_iff.mp hone
  dsimp only at hss'
  subst hss'
  obtain ⟨hss, -⟩ := Cells.mem_ridges.mp hr
  have hmem : ∀ s, s = (σ, k) ↔ s ∈ Cells.sides t ∧ Cells.ridgeOf s = ρ := by
    intro s
    rw [← List.mem_singleton, hss, List.mem_filter, decide_eq_true_iff]
  obtain ⟨hside, rfl⟩ := (hmem (σ, k)).mp rfl
  obtain ⟨hσ, hk⟩ := Cells.mem_sides.mp hside
  have hb := bounding_of_alone ht hi hc hσ hk fun τ hτ b hb he =>
    congrArg Prod.fst ((hmem (τ, b)).mpr ⟨Cells.mem_sides.mpr ⟨hτ, hb⟩, he⟩)
  obtain ⟨f, hf, hzero⟩ := hfacets _ _ hb
  refine List.any_eq_true.mpr ⟨f, hf, List.all_eq_true.mpr fun i hi => ?_⟩
  obtain ⟨hiσ, hik⟩ := Cells.mem_ridgeOf.mp hi
  exact beq_iff_eq.mpr (hzero i (List.mem_toFinset.mpr hiσ) hik)

end Subdivision

theorem checkCells_subdivision (hc : c.IsFull) (hfacets : c.HasFacets)
    (h : c.subdivision w = some t) : c.checkCells w t = some t := by
  obtain ⟨ht, hi⟩ := (subdivision_eq_some_iff hc).mp h
  rw [checkCells, if_neg, if_neg, if_neg]
  · rw [List.any_eq_true]
    rintro ⟨r, hr, hbad⟩
    have hle := length_sides_le ht hi hr
    rw [Bool.or_eq_true, decide_eq_true_iff, Bool.and_eq_true, beq_iff_eq] at hbad
    rcases hbad with hbad | ⟨hone, hoff⟩
    · omega
    · rw [onHull_of_length_eq_one ht hi hc hfacets hr hone] at hoff
      cases hoff
  · rw [List.any_eq_true]
    rintro ⟨σ, hσ, hbad⟩
    have hs := isStrict_of_mem hi hσ
    cases hh : c.heightsAbove w σ with
    | none => exact heightsAbove_eq_none (ht.mem σ hσ) hh hs.simplex
    | some hs' =>
      obtain ⟨-, -, hmem⟩ := heightsAbove_eq_some hc (mem_simplices.mp (ht.mem σ hσ)).2.1 hh
      rw [hh] at hbad
      obtain ⟨x, hx, hx0⟩ := List.any_eq_true.mp hbad
      have hpos := (isStrict_iff_heights hs.subset hs.simplex hmem).mp hs x hx
      exact absurd (of_decide_eq_true hx0) (not_le.mpr hpos)
  · rw [List.isEmpty_iff]
    rintro rfl
    obtain ⟨_, ⟨σ, hσ, -⟩, -⟩ :=
      hi.exists_mem hc.span (c.level_pos ℚ) (inHull_sum (K := ℚ) subset_rfl)
    cases hσ

/-- Whatever cells are proposed, those that are accepted are the subdivision, if the products of the
facets with the points are words. Where the facets leave none out, cells are accepted whenever they
are the subdivision. -/
theorem subdivision_of_accepted (hc : c.IsFull) {program : Polytope.FacetProgram}
    (hrange : ∀ s ∈ program c.dim c.points, ∀ i ∈ s, i < c.size)
    (hfound : (Polytope.ofPoints c.dim c.points).facets program = .ok c.facets)
    (hfit : c.FacetsFit) (w : Vec) (hull : HullProgram) :
    (∀ t, c.lowerHull w hull = some t → c.subdivision w = some t) ∧
      (c.HasFacets → w.length = c.size → ∀ t, c.subdivision w = some t →
        c.proposedCells (hull c w) = t → c.lowerHull w hull = some t) := by
  constructor
  · intro t h
    exact subdivision_of_lowerHull hc
      (hc.supported (fun _ => hrange) hfit hfound).oneSided h
  · rintro hfacets hw t h rfl
    rw [lowerHull, if_pos hw]
    exact checkCells_subdivision hc hfacets h

/-- The program that proposes given cells, where they can be simplices. -/
def proposing (cells : List (List ℕ)) : HullProgram := fun c _ =>
  cells.filterMap fun σ =>
    if h : σ.length = c.dim + 1 ∧ ∀ i ∈ σ, i < c.size then some ⟨σ, h⟩ else none

theorem facets_square : (Polytope.ofPoints 2 square.points).facets = .ok square.facets := by cbv

theorem facetsFit_square : square.FacetsFit := by
  intro f hf q hq
  revert f q
  decide

theorem subdivision_of_accepted_square :
    square.IsFull ∧ square.FacetsFit ∧
      (Polytope.ofPoints 2 square.points).facets = .ok square.facets ∧
      square.lowerHull [0, 0, 0, 1, 2] (proposing [[3, 1, 2], [2, 0, 1]]) =
        some [[0, 1, 2], [1, 2, 3]] ∧
      square.subdivision [0, 0, 0, 1, 2] = some [[0, 1, 2], [1, 2, 3]] := by
  have haccepted : square.lowerHull [0, 0, 0, 1, 2] (proposing [[3, 1, 2], [2, 0, 1]]) =
      some [[0, 1, 2], [1, 2, 3]] := by
    have hcells : square.proposedCells (proposing [[3, 1, 2], [2, 0, 1]] square [0, 0, 0, 1, 2]) =
        [[0, 1, 2], [1, 2, 3]] := by cbv
    rw [lowerHull, if_pos (by decide), hcells]
    decide +kernel
  exact ⟨isFull_square, facetsFit_square, facets_square, haccepted, (subdivision_of_accepted
    isFull_square (fun _ => Polytope.lt_of_mem_facetSimplices) facets_square facetsFit_square
    _ _).1 _ haccepted⟩

end Configuration

end Orthant
