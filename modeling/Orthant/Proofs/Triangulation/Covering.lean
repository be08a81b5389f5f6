import Mathlib
import Orthant.Proofs.Polytope.Proposal
import Orthant.Proofs.Polytope.Sublist
import Orthant.Proofs.Triangulation.Acceptance

/-! # Subdivisions cover the hull

The cells of a subdivision are the lower envelope of the lifted points, in real space as well as over
the rationals. So they cover the hull, two cells meet in the hull of their common vertices, and the
ridges inside the hull have two sides.
-/

namespace Orthant

open Finset Lifting

namespace Configuration

variable {c : Configuration} {s : Finset ℕ} {σ τ : Cell} {t : Triangulation} {w : Vec}
  {x : Fin c.dim → ℝ}

/-! ## Real heights -/

theorem height_cast (hs : IsSimplex ℚ (c.vector ℚ) s) (hI : s ⊆ c.placeSet) (j : ℕ) (v : ℕ → ℚ) :
    height (c.vector ℝ) s j (fun i => (v i : ℝ)) = ((height (c.vector ℚ) s j v : ℚ) : ℝ) := by
  have hs' : IsSimplex ℝ (c.vector ℝ) s := isSimplex_change_field hs hI
  rw [height, height, hs.plane_eq_sum, hs'.plane_eq_sum]
  push_cast
  congr 1
  exact sum_congr rfl fun i hi => by rw [coord_cast hs hI hi]

theorem induces_cast {v : ℕ → ℚ} {T : Set (Finset ℕ)}
    (hi : Induces (c.vector ℚ) c.placeSet v T) :
    Induces (c.vector ℝ) c.placeSet (fun i => (v i : ℝ)) T := by
  constructor
  · intro s hs
    have hs' : IsSimplex ℚ (c.vector ℚ) s := isSimplex_change_field hs.simplex hs.subset
    refine hi.mem s ⟨hs', hs.subset, fun j hj => ?_⟩
    have := hs.height_nonneg j hj
    rwa [height_cast hs' hs.subset, Rat.cast_nonneg] at this
  · intro s hs
    have hs := hi.strict s hs
    refine ⟨⟨isSimplex_change_field hs.simplex hs.subset, hs.subset, fun j hj => ?_⟩,
      fun j hj hjs => ?_⟩
    · rw [height_cast hs.simplex hs.subset, Rat.cast_nonneg]
      exact hs.height_nonneg j hj
    · rw [height_cast hs.simplex hs.subset, Rat.cast_pos]
      exact hs.height_pos j hj hjs

/-! ## Cells in space -/

/-- The cells are simplices that cover the hull, and any two meet in the hull of their common
vertices. -/
structure IsGeometric (c : Configuration) (t : Triangulation) : Prop where
  ne_nil : t ≠ []
  length : ∀ σ ∈ t, σ.length = c.dim + 1
  simplex : ∀ σ ∈ t, AffineIndependent ℝ fun i : σ.toFinset => realPoint c.dim (c.pointAt i)
  covers : ⋃ σ ∈ t, c.hullAt σ.toFinset = convexHull ℝ (pointSet c.dim c.points)
  inter : ∀ σ ∈ t, ∀ τ ∈ t,
    c.hullAt σ.toFinset ∩ c.hullAt τ.toFinset = c.hullAt (σ.toFinset ∩ τ.toFinset)

theorem exists_overlap {k b : ℕ} (hs : IsSimplex ℝ (c.vector ℝ) s) (hb : b ∉ s)
    (hs' : IsSimplex ℝ (c.vector ℝ) (insert b (s.erase k)))
    (hbk : 0 ≤ coord (K := ℝ) (c.vector ℝ) s k (c.vector ℝ b)) :
    ∃ x, x ∈ c.hullAt s ∧ x ∈ c.hullAt (insert b (s.erase k)) ∧ x ∉ c.hullAt (s.erase k) := by
  have hbτ : b ∈ insert b (s.erase k) := mem_insert_self _ _
  have hridge : (insert b (s.erase k)).erase b = s.erase k :=
    erase_insert fun hm => hb (mem_of_mem_erase hm)
  -- A small step from the inside of the ridge to the other vertex stays in both simplices.
  obtain ⟨ε, hstep, hε⟩ : ∃ ε : ℝ, (∀ i ∈ s,
      0 < 1 + ε * coord (K := ℝ) (c.vector ℝ) s i (c.vector ℝ b)) ∧ 0 < ε :=
    (((Filter.eventually_all_finset _).mpr fun i _ => eventually_add_mul_pos one_pos _).and
      eventually_pos).exists
  obtain ⟨x, m, hm, hx⟩ := exists_raise_eq_smul (n := c.dim)
    (y := ∑ i ∈ s.erase k, c.vector ℝ i + ε • c.vector ℝ b) (by
      simp only [vector_eq_raise, Pi.add_apply, Finset.sum_apply, Pi.smul_apply, raise_last,
        smul_eq_mul, mul_one]
      exact add_pos_of_nonneg_of_pos (sum_nonneg fun _ _ => zero_le_one) hε)
  have hcoord : ∀ i ∈ insert b (s.erase k),
      coord (K := ℝ) (c.vector ℝ) (insert b (s.erase k)) i (raise x) =
        m * ((if i = b then 0 else 1) + ε * if b = i then 1 else 0) := by
    intro i hi
    rw [hx, map_smul, smul_eq_mul, ← hs'.coord_vertex hbτ, ← hs'.coord_sum_erase_add hi, hridge]
  refine ⟨x, (mem_hullAt_iff_inCone hs).mpr fun i hi => ?_,
    (mem_hullAt_iff_inCone hs').mpr fun i hi => ?_, fun hmem => ?_⟩
  · rw [hx, map_smul, hs.coord_sum_erase_add hi]
    refine mul_nonneg hm.le ?_
    split
    case isTrue hik => exact hik ▸ add_nonneg le_rfl (mul_nonneg hε.le hbk)
    case isFalse => exact (hstep i hi).le
  · rw [hcoord i hi]
    refine mul_nonneg hm.le (add_nonneg ?_ (mul_nonneg hε.le ?_)) <;> split <;> simp
  · rw [← hridge] at hmem
    have hzero := ((mem_hullAt_erase_iff hs' hbτ).mp hmem).2
    rw [hcoord b hbτ, if_pos rfl, if_pos rfl, zero_add, mul_one] at hzero
    exact (mul_pos hm hε).ne' hzero

section Geometric

variable (ht : c.IsComplex t) (hg : c.IsGeometric t)

include ht hg

theorem IsGeometric.isSimplex (hσ : σ ∈ t) : IsSimplex ℚ (c.vector ℚ) σ.toFinset :=
  (isSimplex_iff_affineIndependent (ht.mem σ hσ)).mpr (hg.simplex σ hσ)

theorem IsGeometric.isFull (hlen : ∀ p ∈ c.points, p.length = c.dim) : c.IsFull := by
  obtain ⟨σ, hσ⟩ := List.exists_mem_of_ne_nil t hg.ne_nil
  obtain ⟨hp, hl, -⟩ := mem_simplices.mp (ht.mem σ hσ)
  obtain ⟨inv, hinv⟩ := (inverse_eq_some_iff hl hp.nodup).mpr (hg.isSimplex ht hσ)
  exact isFull_of_inverse hlen (ht.mem σ hσ) hinv

theorem IsGeometric.isCover : c.IsCover t := by
  refine ⟨ht, fun σ hσ => hg.isSimplex ht hσ, fun j hj => ?_⟩
  have hmem : realPoint c.dim (c.pointAt j) ∈ convexHull ℝ (pointSet c.dim c.points) :=
    subset_convexHull ℝ _ (mem_pointSet.mpr ⟨j, mem_placeSet.mpr hj, rfl⟩)
  rw [← hg.covers] at hmem
  obtain ⟨σ, hσ, hmem⟩ := Set.mem_iUnion₂.mp hmem
  exact ⟨σ, hσ, (realPoint_mem_hullAt_iff (hg.isSimplex ht hσ) (toFinset_subset (ht.mem σ hσ))
    (c.pointAt j)).mp hmem⟩

/-- Cells with a common ridge lie on its two sides. -/
theorem IsGeometric.coord_neg (hσ : σ ∈ t) (hτ : τ ∈ t) {k b : ℕ} (hk : k ∈ σ.toFinset)
    (hb : b ∉ σ.toFinset) (he : τ.toFinset = insert b (σ.toFinset.erase k)) :
    coord (K := ℚ) (c.vector ℚ) σ.toFinset k (c.vector ℚ b) < 0 := by
  by_contra hneg
  have hs := hg.isSimplex ht hσ
  have hI := toFinset_subset (ht.mem σ hσ)
  have hs' : IsSimplex ℝ (c.vector ℝ) τ.toFinset :=
    isSimplex_change_field (hg.isSimplex ht hτ) (toFinset_subset (ht.mem τ hτ))
  obtain ⟨x, hx, hx', hbeyond⟩ := exists_overlap (isSimplex_change_field hs hI) hb (he ▸ hs') (by
    rw [coord_cast hs hI hk, Rat.cast_nonneg]
    exact not_lt.mp hneg)
  have hcommon : σ.toFinset ∩ τ.toFinset = σ.toFinset.erase k := by
    rw [he, inter_insert_of_notMem hb, inter_eq_right.mpr (erase_subset k _)]
  rw [← he] at hx'
  exact hbeyond (hcommon ▸ hg.inter σ hσ τ hτ ▸ ⟨hx, hx'⟩)

end Geometric

section Induced

variable {v : ℕ → ℝ} (hi : Induces (c.vector ℝ) c.placeSet v t.cells)

include hi

theorem exists_mem_hullAt (hc : c.IsFull) (hx : x ∈ convexHull ℝ (pointSet c.dim c.points)) :
    ∃ σ ∈ t, x ∈ c.hullAt σ.toFinset := by
  have hhull : InHull ℝ (c.vector ℝ) c.placeSet (raise x) := fun s _ _ k _ hpos =>
    nonneg_of_mem_hull hpos hx
  obtain ⟨_, ⟨σ, hσ, rfl⟩, hcone⟩ :=
    hi.exists_mem (span_change_field hc.span) (c.level_pos ℝ) hhull
  exact ⟨σ, hσ, (mem_hullAt_iff_inCone (hi.strict _ ⟨σ, hσ, rfl⟩).simplex).mpr hcone⟩

theorem hullAt_inter (hσ : σ ∈ t) (hτ : τ ∈ t) :
    c.hullAt σ.toFinset ∩ c.hullAt τ.toFinset = c.hullAt (σ.toFinset ∩ τ.toFinset) := by
  have hs := hi.strict _ ⟨σ, hσ, rfl⟩
  have hs' := hi.strict _ ⟨τ, hτ, rfl⟩
  apply Set.Subset.antisymm
  · rintro x ⟨hx, hx'⟩
    rw [mem_hullAt_iff_inCone hs.simplex] at hx
    rw [mem_hullAt_iff_inCone hs'.simplex] at hx'
    have hzero : ∀ i ∈ σ.toFinset, i ∉ σ.toFinset ∩ τ.toFinset →
        coord (K := ℝ) (c.vector ℝ) σ.toFinset i (raise x) • c.vector ℝ i = 0 := by
      intro i hi hn
      have hle : coord (K := ℝ) (c.vector ℝ) σ.toFinset i (raise x) ≤ 0 := by
        by_contra hpos
        have := hs'.mem_of_coord_pos hs.toIsLower hx hx' hi (not_le.mp hpos)
        exact hn (mem_inter.mpr ⟨hi, this⟩)
      rw [le_antisymm hle (hx i hi), zero_smul]
    refine mem_hullAt_iff.mpr ⟨fun i => coord (c.vector ℝ) σ.toFinset i (raise x),
      fun i hi => hx i (mem_of_mem_inter_left hi), ?_⟩
    rw [sum_subset inter_subset_left hzero, hs.simplex.sum_coord]
  · exact Set.subset_inter (hullAt_mono inter_subset_left) (hullAt_mono inter_subset_right)

end Induced

theorem isGeometric_of_induces (hc : c.IsFull) (ht : c.IsComplex t) {v : ℕ → ℚ}
    (hi : Induces (c.vector ℚ) c.placeSet v t.cells) : c.IsGeometric t := by
  have hi' := induces_cast hi
  constructor
  · rintro rfl
    obtain ⟨_, ⟨σ, hσ, -⟩, -⟩ :=
      hi.exists_mem hc.span (c.level_pos ℚ) (inHull_sum (K := ℚ) subset_rfl)
    cases hσ
  · exact fun σ hσ => (mem_simplices.mp (ht.mem σ hσ)).2.1
  · exact fun σ hσ =>
      (isSimplex_iff_affineIndependent (ht.mem σ hσ)).mp (isStrict_of_mem hi hσ).simplex
  · refine Set.Subset.antisymm (Set.iUnion₂_subset fun σ hσ => ?_) fun x hx => ?_
    · rw [← hullAt_placeSet]
      exact hullAt_mono (isStrict_of_mem hi hσ).subset
    · obtain ⟨σ, hσ, hx⟩ := exists_mem_hullAt hi' hc hx
      exact Set.mem_biUnion hσ hx
  · exact fun σ hσ τ hτ => hullAt_inter hi' hσ hτ

theorem isGeometric_square : square.IsComplex [[0, 1, 2], [1, 2, 3]] ∧
    square.IsGeometric [[0, 1, 2], [1, 2, 3]] := by
  obtain ⟨ht, v, hv⟩ := isFull_square.isRegular_iff.mp isRegular_square
  exact ⟨ht, isGeometric_of_induces isFull_square ht hv⟩

/-! ## Complete facets -/

/-- The facets leave none out: the hull is where all of them hold. -/
def FacetsComplete (c : Configuration) : Prop :=
  ∀ x : Fin c.dim → ℝ, x ∈ convexHull ℝ (pointSet c.dim c.points) ↔
    ∀ f ∈ c.facets, ∑ r : Fin c.dim, ((f.normal.getD r 0 : ℤ) : ℝ) * x r ≤ f.offset

theorem FacetsComplete.mem_interior_of_pos (h : c.FacetsComplete)
    (hx : ∀ f ∈ c.facets, 0 < f.form c.dim ℝ (raise x)) :
    x ∈ interior (convexHull ℝ (pointSet c.dim c.points)) := by
  refine mem_interior.mpr ⟨_, fun y hy => (h y).mpr fun f hf => ?_, isOpen_forms_pos c.facets, hx⟩
  have := hy f hf
  rw [form_raise, sub_pos] at this
  exact this.le

theorem pos_of_mem_interior {g : (Fin (c.dim + 1) → ℝ) →ₗ[ℝ] ℝ}
    (hg : ∀ i ∈ c.placeSet, 0 ≤ g (c.vector ℝ i)) {k : ℕ} (hk : 0 < g (c.vector ℝ k))
    (hx : x ∈ interior (convexHull ℝ (pointSet c.dim c.points))) : 0 < g (raise x) := by
  let q := realPoint c.dim (c.pointAt k)
  obtain ⟨ε, hε, hmem⟩ := exists_step_of_mem_interior hx (x - q)
  have hraise : raise (x + ε • (x - q)) = (1 + ε) • raise x - ε • c.vector ℝ k := by
    rw [vector_eq_raise]
    funext r
    refine Fin.lastCases ?_ (fun r => ?_) r
    · simp
    · simp only [raise_castSucc, Pi.add_apply, Pi.sub_apply, Pi.smul_apply, smul_eq_mul, q]
      ring
  have hnonneg := nonneg_of_mem_hull hg hmem
  rw [hraise, map_sub, map_smul, map_smul, smul_eq_mul, smul_eq_mul] at hnonneg
  nlinarith [mul_pos hε hk]

/-- Complete facets have one through the vertices of a simplex but one wherever no point lies
beyond. -/
theorem FacetsComplete.hasFacets (hc : c.IsFull) (hdim : 0 < c.dim) (hsup : c.Supported)
    (h : c.FacetsComplete) : c.HasFacets := by
  intro s k hb
  have hcard : (s.erase k).card = c.dim := by
    rw [card_erase_of_mem hb.mem, hb.simplex.card]
    simp
  let y : Fin c.dim → ℝ :=
    ∑ i ∈ s.erase k, (c.dim : ℝ)⁻¹ • realPoint c.dim (c.pointAt i)
  have hy : ∑ i ∈ s.erase k, (c.dim : ℝ)⁻¹ • c.vector ℝ i = raise y := by
    simp only [vector_eq_raise]
    rw [sum_smul_raise_eq_iff]
    refine ⟨funext fun r => (raise_castSucc y r).symm, ?_⟩
    rw [sum_const, hcard, nsmul_eq_mul, mul_inv_cancel₀ (by exact_mod_cast hdim.ne'), raise_last]
  have hzero : coord (K := ℝ) (c.vector ℝ) s k (raise y) = 0 := by
    rw [← hy, map_sum]
    refine sum_eq_zero fun i hi => ?_
    rw [map_smul, hb.simplex.coord_other (mem_of_mem_erase hi) (ne_of_mem_erase hi), smul_zero]
  obtain ⟨f, hf, hle⟩ : ∃ f ∈ c.facets, f.form c.dim ℝ (raise y) ≤ 0 := by
    by_contra hall
    push Not at hall
    have hpos := pos_of_mem_interior hb.nonneg
      (by rw [hb.simplex.coord_self hb.mem]; exact one_pos) (h.mem_interior_of_pos hall)
    exact hpos.ne' hzero
  have hnonneg : ∀ i ∈ s.erase k, 0 ≤ f.form c.dim ℝ (c.vector ℝ i) := fun i hi =>
    form_vector_nonneg hc (hsup f hf) i (hb.subset (mem_of_mem_erase hi))
  have hsum : ∑ i ∈ s.erase k, f.form c.dim ℝ (c.vector ℝ i) ≤ 0 := by
    rw [← hy, ← smul_sum, map_smul, map_sum, smul_eq_mul] at hle
    exact nonpos_of_mul_nonpos_right hle (by positivity)
  refine ⟨f, hf, fun i hi hik => ?_⟩
  have hi' : i ∈ s.erase k := mem_erase.mpr ⟨hik, hi⟩
  have h0 := (sum_eq_zero_iff_of_nonneg hnonneg).mp
    (le_antisymm hsum (sum_nonneg hnonneg)) i hi'
  exact (form_vector_eq_zero_iff hc f ℝ (mem_placeSet.mp (hb.subset hi))).mp h0

theorem HasFacets.facetsComplete (hc : c.IsFull) (hsup : c.Supported) (h : c.HasFacets) :
    c.FacetsComplete := by
  intro x
  rw [mem_convexHull_iff hc hsup h]
  simp only [form_raise, sub_nonneg]

/-! ## Ridges -/

theorem length_sides (hc : c.IsFull) (ht : c.IsComplex t)
    (hi : Induces (c.vector ℚ) c.placeSet (entry w) t.cells) (hsup : c.Supported)
    (hfacets : c.HasFacets) {r : Ridge} (hr : r ∈ t.ridges) :
    r.2.length = if c.onHull r.1 then 1 else 2 := by
  have hle := length_sides_le ht hi hr
  have hpos : 0 < r.2.length := List.length_pos_iff.mpr (Cells.mem_ridges.mp hr).2
  split
  case isTrue hon =>
    by_contra hone
    obtain ⟨ρ, ss⟩ := r
    have htwo : ss.length = 2 := le_antisymm hle (lt_of_le_of_ne hpos (Ne.symm hone))
    obtain ⟨⟨σ, k⟩, ⟨τ, b⟩, rfl⟩ := List.length_eq_two.mp htwo
    obtain ⟨-, -, rfl⟩ := side_of_mem_ridges hr (s := (σ, k)) (by simp)
    obtain ⟨⟨hσ, hk⟩, ⟨hτ, -⟩, hb, he⟩ := ht.pair_of_mem_ridges hr
    have hs := isStrict_of_mem hi hσ
    have hs' := isStrict_of_mem hi hτ
    have hneg := hs.coord_neg (List.mem_toFinset.mpr hk) hb (he ▸ hs'.toIsLower)
    have hnonneg := coord_nonneg_of_onHull hc hsup.oneSided hs.simplex (ht.mem σ hσ) hk hon b
      (hs'.subset (he ▸ mem_insert_self _ _))
    exact hneg.not_ge hnonneg
  case isFalse hon =>
    have hone : r.2.length ≠ 1 := fun h => hon (onHull_of_length_eq_one ht hi hc hfacets hr h)
    omega

/-- The subdivision, where it is a triangulation, covers the hull without overlaps, and each ridge
has the sides that it should have, if the facets are complete and their products are words. So every
point is found in a cell. -/
theorem isGeometric_of_subdivision (hc : c.IsFull) {program : Polytope.FacetProgram}
    (hrange : ∀ s ∈ program c.dim c.points, ∀ i ∈ s, i < c.size)
    (hfound : (Polytope.ofPoints c.dim c.points).facets program = .ok c.facets)
    (hcomplete : c.FacetsComplete) (hfit : c.FacetsFit) (h : c.subdivision w = some t) :
    c.IsGeometric t ∧ (∀ r ∈ t.ridges, r.2.length = if c.onHull r.1 then 1 else 2) ∧
      ∀ j < c.size, ∃ σ ∈ t, c.containing j t = .ok σ ∧
        realPoint c.dim (c.pointAt j) ∈ c.hullAt σ.toFinset := by
  obtain ⟨ht, hi⟩ := (subdivision_eq_some_iff hc).mp h
  have hsup : c.Supported := hc.supported (fun _ => hrange) hfit hfound
  have hdim : 0 < c.dim := (Polytope.isFull_of_facets hfound).2
  refine ⟨isGeometric_of_induces hc ht hi, fun r hr => length_sides hc ht hi hsup
    (hcomplete.hasFacets hc hdim hsup) hr, fun j hj => ?_⟩
  obtain ⟨_, ⟨σ, hσ, rfl⟩, hcone⟩ := hi.exists_mem hc.span (c.level_pos ℚ)
    (inHull_vertex (mem_placeSet.mpr hj))
  obtain ⟨σ, hσ, hcont, hcone⟩ := containing_eq_ok hc hj
    (fun σ hσ => ⟨ht.mem σ hσ, (isStrict_of_mem hi hσ).simplex⟩) ⟨σ, hσ, hcone⟩
  refine ⟨σ, hσ, hcont, ?_⟩
  have hs := isStrict_of_mem hi hσ
  rw [mem_hullAt_iff_inCone (isSimplex_change_field hs.simplex hs.subset), ← vector_eq_raise]
  intro i hi
  rw [coord_cast hs.simplex hs.subset hi, Rat.cast_nonneg]
  exact hcone i hi

theorem isGeometric_of_subdivision_square :
    square.IsFull ∧ square.FacetsComplete ∧ square.FacetsFit ∧
      (Polytope.ofPoints 2 square.points).facets = .ok square.facets ∧
      square.subdivision [0, 0, 0, 1, 2] = some [[0, 1, 2], [1, 2, 3]] ∧
      square.IsGeometric [[0, 1, 2], [1, 2, 3]] := by
  have hcomplete : square.FacetsComplete := (isFull_square.hasFacets facets_square).facetsComplete
    isFull_square (isFull_square.supported (fun _ _ => Polytope.lt_of_mem_facetSimplices)
      facetsFit_square facets_square)
  have hsub : square.subdivision [0, 0, 0, 1, 2] = some [[0, 1, 2], [1, 2, 3]] := by
    decide_cbv
  exact ⟨isFull_square, hcomplete, facetsFit_square, facets_square, hsub,
    (isGeometric_of_subdivision isFull_square (fun _ => Polytope.lt_of_mem_facetSimplices)
      facets_square hcomplete facetsFit_square hsub).1⟩

end Configuration

end Orthant
