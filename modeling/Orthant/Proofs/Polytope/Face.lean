import Mathlib
import Orthant.Proofs.Triangulation.Hull

/-! # Facets of the hull

A facet of a set in space is a face of one dimension less than the space. The facets of the hull of
a configuration are where the hull meets the hyperplanes through the vertices of a simplex but one,
with no point beyond.
-/

namespace Orthant

open Finset Lifting Module

/-! ## Raised sets -/

section Raise

variable {n : ℕ} {A : Set (Fin n → ℝ)}

/-- The vector with 0 behind its coordinates. -/
def flat (n : ℕ) : (Fin n → ℝ) →ₗ[ℝ] (Fin (n + 1) → ℝ) where
  toFun x := Fin.snoc (α := fun _ => ℝ) x 0
  map_add' x y := by
    funext r
    refine Fin.lastCases ?_ (fun r => ?_) r <;> simp
  map_smul' t x := by
    funext r
    refine Fin.lastCases ?_ (fun r => ?_) r <;> simp

@[simp] theorem flat_castSucc (x : Fin n → ℝ) (r : Fin n) : flat n x r.castSucc = x r := by
  simp [flat]

@[simp] theorem flat_last (x : Fin n → ℝ) : flat n x (Fin.last n) = 0 := by simp [flat]

theorem flat_injective : Function.Injective (flat n) := by
  intro x y h
  funext r
  simpa using congrFun h r.castSucc

theorem raise_eq_flat_add (x y : Fin n → ℝ) : raise x = flat n (x - y) + raise y := by
  funext r
  refine Fin.lastCases ?_ (fun r => ?_) r <;> simp

theorem span_raise {a : Fin n → ℝ} (ha : a ∈ A) : Submodule.span ℝ (raise '' A) =
    (vectorSpan ℝ A).map (flat n) ⊔ Submodule.span ℝ {raise a} := by
  apply le_antisymm
  · rw [Submodule.span_le]
    rintro _ ⟨x, hx, rfl⟩
    rw [raise_eq_flat_add x a]
    apply Submodule.add_mem_sup
    · exact Submodule.mem_map_of_mem (vsub_mem_vectorSpan ℝ hx ha)
    · exact Submodule.mem_span_singleton_self _
  · apply sup_le
    · rw [vectorSpan_def, Submodule.map_span, Submodule.span_le]
      rintro _ ⟨_, ⟨x, hx, y, hy, rfl⟩, rfl⟩
      have hsub : flat n (x -ᵥ y) = raise x - raise y := by
        rw [raise_eq_flat_add x y, add_sub_cancel_right]
        rfl
      rw [hsub]
      exact Submodule.sub_mem _ (Submodule.subset_span ⟨x, hx, rfl⟩)
        (Submodule.subset_span ⟨y, hy, rfl⟩)
    · rw [Submodule.span_singleton_le_iff_mem]
      exact Submodule.subset_span ⟨a, ha, rfl⟩

theorem finrank_span_raise (hA : A.Nonempty) :
    finrank ℝ (Submodule.span ℝ (raise '' A)) = finrank ℝ (vectorSpan ℝ A) + 1 := by
  obtain ⟨a, ha⟩ := hA
  have hraise : raise a ≠ 0 := fun h0 => by simpa using congrFun h0 (Fin.last n)
  have hinf : (vectorSpan ℝ A).map (flat n) ⊓ Submodule.span ℝ {raise a} = ⊥ := by
    rw [Submodule.eq_bot_iff]
    rintro _ ⟨⟨x, -, rfl⟩, hx⟩
    obtain ⟨t, ht⟩ := Submodule.mem_span_singleton.mp hx
    have hlast := congrFun ht (Fin.last n)
    simp only [Pi.smul_apply, raise_last, smul_eq_mul, mul_one, flat_last] at hlast
    rw [← ht, hlast, zero_smul]
  have hsum := Submodule.finrank_sup_add_finrank_inf_eq ((vectorSpan ℝ A).map (flat n))
    (Submodule.span ℝ {raise a})
  rw [hinf, finrank_bot, add_zero, finrank_span_singleton hraise,
    ← (Submodule.equivMapOfInjective (flat n) flat_injective _).finrank_eq] at hsum
  rw [span_raise ha, hsum]

end Raise

/-- A facet of a set in space: the part on a hyperplane that has the set on one side, of one
dimension less than the space. -/
structure IsFacet {n : ℕ} (P F : Set (Fin n → ℝ)) : Prop where
  exposed : IsExposed ℝ P F
  nonempty : F.Nonempty
  dim : finrank ℝ (vectorSpan ℝ F) + 1 = n

namespace Configuration

variable {c : Configuration} {s : Finset ℕ} {k : ℕ} {g g' : (Fin (c.dim + 1) → ℝ) →ₗ[ℝ] ℝ}

/-- The convex hull of the points. -/
def hull (c : Configuration) : Set (Fin c.dim → ℝ) := convexHull ℝ (pointSet c.dim c.points)

/-- The part of the hull where a form vanishes. -/
def faceAt (c : Configuration) (g : (Fin (c.dim + 1) → ℝ) →ₗ[ℝ] ℝ) : Set (Fin c.dim → ℝ) :=
  { x ∈ c.hull | g (raise x) = 0 }

theorem faceAt_eq_of_mul {t : ℝ} (ht : 0 < t) (h : ∀ x, g x = t * g' x) :
    c.faceAt g = c.faceAt g' := by
  ext x
  simp [faceAt, h, ht.ne']

theorem realPoint_mem_faceAt {i : ℕ} (hi : i ∈ c.placeSet) :
    realPoint c.dim (c.pointAt i) ∈ c.faceAt g ↔ g (c.vector ℝ i) = 0 := by
  rw [vector_eq_raise]
  exact and_iff_right (subset_convexHull ℝ _ (mem_pointSet.mpr ⟨i, hi, rfl⟩))

theorem exists_sum_vector {x : Fin c.dim → ℝ} (hx : x ∈ c.hull) : ∃ u : ℕ → ℝ,
    (∀ i ∈ c.placeSet, 0 ≤ u i) ∧ ∑ i ∈ c.placeSet, u i • c.vector ℝ i = raise x := by
  rw [hull, ← hullAt_placeSet] at hx
  exact mem_hullAt_iff.mp hx

section Nonneg

variable (hg : ∀ i ∈ c.placeSet, 0 ≤ g (c.vector ℝ i))

include hg

theorem nonneg_of_mem_hull {x : Fin c.dim → ℝ} (hx : x ∈ c.hull) : 0 ≤ g (raise x) := by
  obtain ⟨u, hu, hsum⟩ := exists_sum_vector hx
  rw [← hsum, map_sum]
  apply sum_nonneg
  intro i hi
  rw [map_smul]
  exact mul_nonneg (hu i hi) (hg i hi)

theorem span_raise_faceAt : Submodule.span ℝ (raise '' c.faceAt g) =
    Submodule.span ℝ (c.vector ℝ '' { i | i ∈ c.placeSet ∧ g (c.vector ℝ i) = 0 }) := by
  apply le_antisymm <;> rw [Submodule.span_le]
  · rintro _ ⟨x, ⟨hx, hzero⟩, rfl⟩
    obtain ⟨u, hu, hsum⟩ := exists_sum_vector hx
    rw [← hsum, map_sum, sum_eq_zero_iff_of_nonneg fun i hi => by
      rw [map_smul]
      exact mul_nonneg (hu i hi) (hg i hi)] at hzero
    rw [← hsum]
    apply Submodule.sum_mem
    intro i hi
    rcases mul_eq_zero.mp ((map_smul g (u i) (c.vector ℝ i)).symm.trans (hzero i hi)) with h0 | h0
    · rw [h0, zero_smul]
      exact Submodule.zero_mem _
    · exact Submodule.smul_mem _ _ (Submodule.subset_span ⟨i, ⟨hi, h0⟩, rfl⟩)
  · rintro _ ⟨i, ⟨hi, hzero⟩, rfl⟩
    refine Submodule.subset_span ⟨_, (realPoint_mem_faceAt hi).mpr hzero, ?_⟩
    rw [vector_eq_raise]

theorem isExposed_faceAt {x₀ : Fin c.dim → ℝ} (hx₀ : x₀ ∈ c.faceAt g) :
    IsExposed ℝ c.hull (c.faceAt g) := by
  intro _
  let l : (Fin c.dim → ℝ) →ₗ[ℝ] ℝ := -(g ∘ₗ flat c.dim)
  have hl : ∀ x y, l x - l y = g (raise y) - g (raise x) := by
    intro x y
    rw [raise_eq_flat_add y x, map_add, map_sub, map_sub]
    simp only [l, LinearMap.neg_apply, LinearMap.comp_apply]
    ring
  refine ⟨LinearMap.toContinuousLinearMap l, ?_⟩
  ext x
  simp only [LinearMap.coe_toContinuousLinearMap', Set.mem_ofPred_eq]
  constructor
  · rintro ⟨hx, hzero⟩
    refine ⟨hx, fun y hy => ?_⟩
    have := hl y x
    have := nonneg_of_mem_hull hg hy
    linarith
  · rintro ⟨hx, hmax⟩
    refine ⟨hx, le_antisymm ?_ (nonneg_of_mem_hull hg hx)⟩
    have := hmax _ hx₀.1
    have := hl x₀ x
    rw [hx₀.2] at this
    linarith

/-- A simplex on whose vertices but one such a form vanishes has no point beyond them. -/
theorem bounding_of_form (hne : g ≠ 0) (hs : IsSimplex ℝ (c.vector ℝ) s) (hI : s ⊆ c.placeSet)
    (hk : k ∈ s) (hzero : ∀ i ∈ s, i ≠ k → g (c.vector ℝ i) = 0) :
    c.Bounding s k ∧ ∃ t : ℝ, 0 < t ∧ ∀ x, g x = t * coord (c.vector ℝ) s k x := by
  have hmul := fun x => hs.eq_smul_coord hzero x hk
  have hpos : 0 < g (c.vector ℝ k) := by
    apply lt_of_le_of_ne (hg k (hI hk))
    intro h0
    apply hne
    apply LinearMap.ext
    intro x
    rw [hmul x, ← h0, zero_mul, LinearMap.zero_apply]
  refine ⟨⟨hs, hI, hk, fun j hj => ?_⟩, _, hpos, hmul⟩
  have := hg j hj
  rw [hmul] at this
  exact nonneg_of_mul_nonneg_right this hpos

end Nonneg

/-! ## Simplices on a hyperplane -/

section Hyperplane

variable {K : Type*} [Field K] {g : (Fin (c.dim + 1) → K) →ₗ[K] K} {J : Finset ℕ}

/-- Points on a hyperplane that span all with one point off it contain the other vertices of a
simplex. -/
theorem exists_simplex_of_form (hJ : J ⊆ c.placeSet) (hzero : ∀ j ∈ J, g (c.vector K j) = 0)
    (hk : k ∈ c.placeSet) (hgk : g (c.vector K k) ≠ 0)
    (hspan : Submodule.span K (c.vector K '' (insert k J : Finset ℕ)) = ⊤) :
    ∃ s, IsSimplex K (c.vector K) s ∧ s ⊆ c.placeSet ∧ k ∈ s ∧ s.erase k ⊆ J := by
  obtain ⟨s, hsJ, hs⟩ := exists_isSimplex hspan
  have herase : s.erase k ⊆ J := fun i hi =>
    (mem_insert.mp (hsJ (mem_of_mem_erase hi))).resolve_left (ne_of_mem_erase hi)
  refine ⟨s, hs, hsJ.trans (insert_subset hk hJ), ?_, herase⟩
  by_contra hks
  rw [erase_eq_of_notMem hks] at herase
  have hg : g = 0 := hs.ext_form fun i hi => by rw [hzero i (herase hi), LinearMap.zero_apply]
  exact hgk (by rw [hg, LinearMap.zero_apply])

theorem span_insert_eq_top (hzero : ∀ j ∈ J, g (c.vector K j) = 0) (hgk : g (c.vector K k) ≠ 0)
    (hdim : c.dim ≤ finrank K (Submodule.span K (c.vector K '' J))) :
    Submodule.span K (c.vector K '' (insert k J : Finset ℕ)) = ⊤ := by
  have hker : Submodule.span K (c.vector K '' J) ≤ LinearMap.ker g := by
    rw [Submodule.span_le]
    rintro _ ⟨j, hj, rfl⟩
    exact hzero j hj
  have hlt : Submodule.span K (c.vector K '' J) <
      Submodule.span K (c.vector K '' (insert k J : Finset ℕ)) := by
    rw [SetLike.lt_iff_le_and_exists]
    constructor
    · exact Submodule.span_mono (Set.image_mono (coe_subset.mpr (subset_insert k J)))
    · exact ⟨c.vector K k, Submodule.subset_span ⟨k, by simp, rfl⟩, fun hmem => hgk (hker hmem)⟩
  have hfin := Submodule.finrank_lt_finrank_of_lt hlt
  have hle := Submodule.finrank_le (Submodule.span K (c.vector K '' (insert k J : Finset ℕ)))
  apply Submodule.eq_top_of_finrank_eq
  rw [finrank_fin_fun] at hle ⊢
  omega

theorem IsFull.exists_vector_ne_zero [CharZero K] (hc : c.IsFull) (hg : g ≠ 0) :
    ∃ k ∈ c.placeSet, g (c.vector K k) ≠ 0 := by
  by_contra hall
  push Not at hall
  apply hg
  apply LinearMap.ext_on (span_change_field (L := K) hc.span)
  rintro _ ⟨i, hi, rfl⟩
  exact hall i hi

/-- Some points of rank `dim` on a hyperplane are the vertices of a simplex but one. -/
theorem IsFull.exists_simplex [CharZero K] (hc : c.IsFull) (hg : g ≠ 0) (hJ : J ⊆ c.placeSet)
    (hzero : ∀ j ∈ J, g (c.vector K j) = 0)
    (hdim : c.dim ≤ finrank K (Submodule.span K (c.vector K '' J))) :
    ∃ s k, IsSimplex K (c.vector K) s ∧ s ⊆ c.placeSet ∧ k ∈ s ∧ s.erase k ⊆ J := by
  obtain ⟨k, hk, hgk⟩ := hc.exists_vector_ne_zero hg
  obtain ⟨s, hs⟩ := exists_simplex_of_form hJ hzero hk hgk (span_insert_eq_top hzero hgk hdim)
  exact ⟨s, k, hs⟩

end Hyperplane

/-! ## Facets and simplices -/

theorem Bounding.faceAt_dim (h : c.Bounding s k) : finrank ℝ (Submodule.span ℝ
    (raise '' c.faceAt (coord (K := ℝ) (c.vector ℝ) s k))) = c.dim := by
  set L := Submodule.span ℝ (raise '' c.faceAt (coord (K := ℝ) (c.vector ℝ) s k))
  have hne : L ≠ ⊤ := by
    intro htop
    have hker : L ≤ LinearMap.ker (coord (K := ℝ) (c.vector ℝ) s k) := by
      rw [Submodule.span_le]
      rintro _ ⟨x, hx, rfl⟩
      exact hx.2
    have hmem : c.vector ℝ k ∈ LinearMap.ker (coord (K := ℝ) (c.vector ℝ) s k) :=
      hker (htop ▸ Submodule.mem_top)
    rw [LinearMap.mem_ker, h.simplex.coord_self h.mem] at hmem
    exact one_ne_zero hmem
  have hle : Submodule.span ℝ (c.vector ℝ '' (s.erase k : Finset ℕ)) ≤ L := by
    rw [Submodule.span_le]
    rintro _ ⟨i, hi, rfl⟩
    have hi := mem_erase.mp (mem_coe.mp hi)
    have hzero := h.simplex.coord_other hi.2 hi.1
    refine Submodule.subset_span ⟨_, (realPoint_mem_faceAt (h.subset hi.2)).mpr hzero, ?_⟩
    rw [vector_eq_raise]
  have hcard : finrank ℝ (Submodule.span ℝ (c.vector ℝ '' (s.erase k : Finset ℕ))) = c.dim := by
    have hind : LinearIndepOn ℝ (c.vector ℝ) (s.erase k : Finset ℕ) :=
      h.simplex.indep.mono (coe_subset.mpr (erase_subset k s))
    have hfin := finrank_span_eq_card hind.linearIndependent
    rw [← Set.image_eq_range] at hfin
    rw [hfin, Set.fintypeCard_eq_ncard, Set.ncard_coe_finset, card_erase_of_mem h.mem,
      h.simplex.card, finrank_fin_fun]
    rfl
  have hlt := Submodule.finrank_lt hne
  have hmono := Submodule.finrank_mono hle
  rw [finrank_fin_fun] at hlt
  omega

/-- The vertices of a simplex but one, with no point beyond, lie on a facet of the hull. -/
theorem Bounding.isFacet (h : c.Bounding s k) (hdim : 0 < c.dim) :
    IsFacet c.hull (c.faceAt (coord (K := ℝ) (c.vector ℝ) s k)) := by
  obtain ⟨i, hi⟩ : (s.erase k).Nonempty := by
    rw [← card_pos, card_erase_of_mem h.mem, h.simplex.card]
    simpa using hdim
  have hmem : realPoint c.dim (c.pointAt i) ∈ c.faceAt (coord (K := ℝ) (c.vector ℝ) s k) := by
    have hi := mem_erase.mp hi
    exact (realPoint_mem_faceAt (h.subset hi.2)).mpr (h.simplex.coord_other hi.2 hi.1)
  constructor
  · exact isExposed_faceAt h.nonneg hmem
  · exact ⟨_, hmem⟩
  · rw [← finrank_span_raise ⟨_, hmem⟩, h.faceAt_dim]

theorem exists_form_of_isFacet {F : Set (Fin c.dim → ℝ)} (hF : IsFacet c.hull F) :
    ∃ g : (Fin (c.dim + 1) → ℝ) →ₗ[ℝ] ℝ,
      (∀ i ∈ c.placeSet, 0 ≤ g (c.vector ℝ i)) ∧ F = c.faceAt g := by
  obtain ⟨l, hl⟩ := hF.exposed hF.nonempty
  obtain ⟨x₀, hx₀⟩ := hF.nonempty
  rw [hl] at hx₀
  let g : (Fin (c.dim + 1) → ℝ) →ₗ[ℝ] ℝ :=
    l x₀ • LinearMap.proj (Fin.last c.dim) - l.toLinearMap ∘ₗ LinearMap.funLeft ℝ ℝ Fin.castSucc
  have hg : ∀ x, g (raise x) = l x₀ - l x := by
    intro x
    have : LinearMap.funLeft ℝ ℝ Fin.castSucc (raise x) = x := by
      funext r
      simp [LinearMap.funLeft_apply]
    simp [g, this]
  refine ⟨g, fun i hi => ?_, ?_⟩
  · rw [vector_eq_raise, hg, sub_nonneg]
    exact hx₀.2 _ (subset_convexHull ℝ _ (mem_pointSet.mpr ⟨i, hi, rfl⟩))
  · rw [hl]
    ext x
    simp only [faceAt, Set.mem_ofPred_eq, hg, sub_eq_zero]
    constructor
    · rintro ⟨hx, hmax⟩
      exact ⟨hx, le_antisymm (hmax x₀ hx₀.1) (hx₀.2 x hx)⟩
    · rintro ⟨hx, hzero⟩
      exact ⟨hx, fun y hy => hzero ▸ hx₀.2 y hy⟩

/-- Every facet of the hull lies on the hyperplane through the vertices of a simplex but one, with
no point beyond. -/
theorem exists_bounding (hc : c.IsFull) {F : Set (Fin c.dim → ℝ)} (hF : IsFacet c.hull F) :
    ∃ s k, c.Bounding s k ∧ F = c.faceAt (coord (K := ℝ) (c.vector ℝ) s k) := by
  classical
  obtain ⟨g, hg, rfl⟩ := exists_form_of_isFacet hF
  let J := c.placeSet.filter fun i => g (c.vector ℝ i) = 0
  have hJ : (J : Set ℕ) = { i | i ∈ c.placeSet ∧ g (c.vector ℝ i) = 0 } := by
    ext i
    simp [J]
  have hdim : finrank ℝ (Submodule.span ℝ (c.vector ℝ '' J)) = c.dim := by
    rw [hJ, ← span_raise_faceAt hg, finrank_span_raise hF.nonempty, hF.dim]
  have hne : g ≠ 0 := by
    rintro rfl
    rw [show J = c.placeSet from filter_true_of_mem fun _ _ => rfl,
      span_change_field (L := ℝ) hc.span, finrank_top, finrank_fin_fun] at hdim
    omega
  have hzero : ∀ j ∈ J, g (c.vector ℝ j) = 0 := fun j hj => (mem_filter.mp hj).2
  obtain ⟨s, k, hs, hI, hk, herase⟩ :=
    hc.exists_simplex hne (filter_subset _ _) hzero hdim.ge
  obtain ⟨hb, t, ht, hmul⟩ := bounding_of_form hg hne hs hI hk fun i hi hik =>
    hzero i (herase (mem_erase.mpr ⟨hik, hi⟩))
  exact ⟨s, k, hb, faceAt_eq_of_mul ht hmul⟩

end Configuration

end Orthant
