import Mathlib
import Orthant.Proofs.Triangulation.Determinant
import Orthant.Proofs.Triangulation.LowerHull

/-! # The hull of a configuration

The points affinely span their space when their lifted vectors span it linearly. The interior of
their convex hull is where all facets hold strictly.
-/

namespace Orthant

open Finset Lifting

/-! ## Points in real space -/

/-- The coordinates of a point as reals. -/
def realPoint (n : ℕ) (p : List ℤ) : Fin n → ℝ := fun r => ((p.getD r 0 : ℤ) : ℝ)

/-- The points as a set. -/
def pointSet (n : ℕ) (points : List (List ℤ)) : Set (Fin n → ℝ) :=
  { x | ∃ p ∈ points, realPoint n p = x }

def raise {n : ℕ} (x : Fin n → ℝ) : Fin (n + 1) → ℝ := Fin.snoc (α := fun _ => ℝ) x 1

variable {n : ℕ}

@[simp] theorem raise_castSucc (x : Fin n → ℝ) (r : Fin n) : raise x r.castSucc = x r := by
  simp [raise]

@[simp] theorem raise_last (x : Fin n → ℝ) : raise x (Fin.last n) = 1 := by simp [raise]

theorem exists_raise_eq_smul {y : Fin (n + 1) → ℝ} (hy : 0 < y (Fin.last n)) :
    ∃ x : Fin n → ℝ, ∃ s : ℝ, 0 < s ∧ raise x = s • y := by
  refine ⟨fun r => (y (Fin.last n))⁻¹ * y r.castSucc, (y (Fin.last n))⁻¹, inv_pos.mpr hy, ?_⟩
  funext r
  refine Fin.lastCases ?_ (fun r => ?_) r
  · simp [hy.ne']
  · simp

theorem raise_realPoint (p : List ℤ) : raise (realPoint n p) = liftPoint n ℝ p := by
  funext r
  refine Fin.lastCases ?_ (fun r => ?_) r
  · simp [liftPoint]
  · simp [liftPoint, realPoint]

theorem sum_smul_raise_eq_iff {ι : Type*} (s : Finset ι) (w : ι → ℝ) (p : ι → Fin n → ℝ)
    (y : Fin (n + 1) → ℝ) : ∑ i ∈ s, w i • raise (p i) = y ↔
      ∑ i ∈ s, w i • p i = (fun r => y r.castSucc) ∧ ∑ i ∈ s, w i = y (Fin.last n) := by
  simp only [funext_iff, Fin.forall_fin_succ', Finset.sum_apply, Pi.smul_apply, smul_eq_mul,
    raise_castSucc, raise_last, mul_one]

theorem linearIndependent_raise_iff {ι : Type*} {p : ι → Fin n → ℝ} :
    LinearIndependent ℝ (fun i => raise (p i)) ↔ AffineIndependent ℝ p := by
  rw [affineIndependent_iff, linearIndependent_iff']
  refine forall₂_congr fun s w => ?_
  simp only [sum_smul_raise_eq_iff, Pi.zero_apply]
  exact ⟨fun h h₀ h₁ => h ⟨h₁, h₀⟩, fun h h' => h h'.2 h'.1⟩

/-- From the interior a small step in any direction stays in the set. -/
theorem exists_step_of_mem_interior {A : Set (Fin n → ℝ)} {x : Fin n → ℝ} (hx : x ∈ interior A)
    (u : Fin n → ℝ) : ∃ ε : ℝ, 0 < ε ∧ x + ε • u ∈ A := by
  have hev : ∀ᶠ ε in nhds (0 : ℝ), x + ε • u ∈ A := by
    have hcont : Continuous fun ε : ℝ => x + ε • u := by fun_prop
    refine hcont.continuousAt.eventually (mem_interior_iff_mem_nhds.mp ?_)
    simpa using hx
  obtain ⟨ε, hmem, hε⟩ := ((hev.filter_mono (nhdsWithin_le_nhds (s := Set.Ioi 0))).and
    self_mem_nhdsWithin).exists
  exact ⟨ε, hε, hmem⟩

namespace Configuration

variable {c : Configuration} {σ : Cell}

theorem vector_eq_raise (i : ℕ) : c.vector ℝ i = raise (realPoint c.dim (c.pointAt i)) :=
  (raise_realPoint _).symm

theorem mem_pointSet {x : Fin c.dim → ℝ} : x ∈ pointSet c.dim c.points ↔
    ∃ i ∈ c.placeSet, realPoint c.dim (c.pointAt i) = x := by
  simp only [pointSet, Set.mem_ofPred_eq, List.mem_iff_getElem, mem_placeSet, size]
  constructor
  · rintro ⟨_, ⟨i, hi, rfl⟩, hx⟩
    exact ⟨i, hi, by rw [pointAt, List.getD_eq_getElem _ _ hi, hx]⟩
  · rintro ⟨i, hi, hx⟩
    exact ⟨_, ⟨i, hi, rfl⟩, by rw [← hx, pointAt, List.getD_eq_getElem _ _ hi]⟩

/-- The convex hull of the points at some places. -/
def hullAt (c : Configuration) (s : Finset ℕ) : Set (Fin c.dim → ℝ) :=
  convexHull ℝ ((fun i => realPoint c.dim (c.pointAt i)) '' s)

theorem hullAt_placeSet : c.hullAt c.placeSet = convexHull ℝ (pointSet c.dim c.points) := by
  refine congrArg (convexHull ℝ) (Set.ext fun x => ?_)
  rw [mem_pointSet]
  rfl

theorem hullAt_mono {s s' : Finset ℕ} (h : s ⊆ s') : c.hullAt s ⊆ c.hullAt s' :=
  convexHull_mono (Set.image_mono (coe_subset.mpr h))

theorem mem_hullAt_iff {s : Finset ℕ} {x : Fin c.dim → ℝ} : x ∈ c.hullAt s ↔
    ∃ u : ℕ → ℝ, (∀ i ∈ s, 0 ≤ u i) ∧ ∑ i ∈ s, u i • c.vector ℝ i = raise x := by
  constructor
  · intro hx
    refine convexHull_min (t := { x | ∃ u : ℕ → ℝ, (∀ i ∈ s, 0 ≤ u i) ∧
      ∑ i ∈ s, u i • c.vector ℝ i = raise x }) ?_ ?_ hx
    · rintro _ ⟨i, hi, rfl⟩
      refine ⟨Pi.single i 1, fun j _ => ?_, ?_⟩
      · by_cases hj : j = i <;> simp [hj]
      · rw [sum_eq_single_of_mem i hi fun j _ hji => by rw [Pi.single_eq_of_ne hji, zero_smul],
          Pi.single_eq_same, one_smul, vector_eq_raise]
    · rintro x ⟨u, hu, hux⟩ y ⟨v, hv, hvy⟩ a b ha hb hab
      refine ⟨a • u + b • v, fun i hi => ?_, ?_⟩
      · exact add_nonneg (mul_nonneg ha (hu i hi)) (mul_nonneg hb (hv i hi))
      · simp only [Pi.add_apply, Pi.smul_apply, smul_eq_mul, add_smul, mul_smul, sum_add_distrib,
          ← smul_sum, hux, hvy]
        funext r
        refine Fin.lastCases ?_ (fun r => ?_) r <;> simp [hab]
  · rintro ⟨u, hu, hsum⟩
    simp only [vector_eq_raise] at hsum
    obtain ⟨hsum, hone⟩ := (sum_smul_raise_eq_iff ..).mp hsum
    rw [raise_last] at hone
    have hmem : ∑ i ∈ s, u i • realPoint c.dim (c.pointAt i) ∈ c.hullAt s :=
      (convex_convexHull ℝ _).sum_mem hu hone fun i hi => subset_convexHull ℝ _ ⟨i, hi, rfl⟩
    rw [hsum] at hmem
    simpa only [raise_castSucc] using hmem

theorem mem_hullAt_iff_inCone {s : Finset ℕ} (hs : IsSimplex ℝ (c.vector ℝ) s)
    {x : Fin c.dim → ℝ} : x ∈ c.hullAt s ↔ InCone ℝ (c.vector ℝ) s (raise x) := by
  rw [mem_hullAt_iff]
  constructor
  · rintro ⟨u, hu, hsum⟩ i hi
    rw [← hsum, map_sum, sum_eq_single_of_mem i hi fun k hk hki => by
      rw [map_smul, hs.coord_other hk hki, smul_zero], map_smul, hs.coord_self hi, smul_eq_mul,
      mul_one]
    exact hu i hi
  · exact fun h => ⟨_, h, hs.sum_coord (raise x)⟩

/-- The facet opposite to a vertex is where the coordinate at the vertex is zero. -/
theorem mem_hullAt_erase_iff {s : Finset ℕ} (hs : IsSimplex ℝ (c.vector ℝ) s) {i : ℕ}
    (hi : i ∈ s) {x : Fin c.dim → ℝ} : x ∈ c.hullAt (s.erase i) ↔
      x ∈ c.hullAt s ∧ coord (K := ℝ) (c.vector ℝ) s i (raise x) = 0 := by
  constructor
  · intro hx
    refine ⟨hullAt_mono (erase_subset i s) hx, ?_⟩
    obtain ⟨u, -, hsum⟩ := mem_hullAt_iff.mp hx
    rw [← hsum, map_sum]
    refine sum_eq_zero fun k hk => ?_
    obtain ⟨hki, hk⟩ := mem_erase.mp hk
    rw [map_smul, hs.coord_other hk hki, smul_zero]
  · rintro ⟨hx, hzero⟩
    have hcone := (mem_hullAt_iff_inCone hs).mp hx
    refine mem_hullAt_iff.mpr ⟨_, fun k hk => hcone k (mem_of_mem_erase hk), ?_⟩
    have hsum := hs.sum_coord (raise x)
    rwa [← add_sum_erase _ _ hi, hzero, zero_smul, zero_add] at hsum

theorem isSimplex_change_field {K L : Type*} [Field K] [CharZero K] [Field L] [CharZero L]
    {s : Finset ℕ} (hs : IsSimplex K (c.vector K) s) (hI : s ⊆ c.placeSet) :
    IsSimplex L (c.vector L) s := by
  have hmem := sort_mem_simplices hs hI
  have hfin : s.sort.toFinset = s := by simp
  rw [← hfin] at hs ⊢
  exact (isSimplex_iff_det hmem).mpr ((isSimplex_iff_det hmem).mp hs)

theorem span_change_field {K L : Type*} [Field K] [CharZero K] [Field L] [CharZero L]
    (h : Submodule.span K (c.vector K '' c.placeSet) = ⊤) :
    Submodule.span L (c.vector L '' c.placeSet) = ⊤ := by
  obtain ⟨s, hI, hs⟩ := exists_isSimplex h
  refine top_unique ?_
  rw [← (isSimplex_change_field (L := L) hs hI).span_eq_top]
  exact Submodule.span_mono (Set.image_mono (coe_subset.mpr hI))

theorem span_eq_top_of_affineSpan (h : affineSpan ℝ (pointSet c.dim c.points) = ⊤) :
    Submodule.span ℝ (c.vector ℝ '' c.placeSet) = ⊤ := by
  set L := Submodule.span ℝ (c.vector ℝ '' c.placeSet) with hL
  have hraise : ∀ x : Fin c.dim → ℝ, raise x ∈ L := by
    intro x
    refine affineSpan_induction (k := ℝ) (p := fun x => raise x ∈ L)
      (h ▸ AffineSubspace.mem_top ℝ _ x) (fun y hy => ?_) fun s u v w hu hv hw => ?_
    · obtain ⟨i, hi, rfl⟩ := mem_pointSet.mp hy
      rw [← vector_eq_raise]
      exact Submodule.subset_span ⟨i, hi, rfl⟩
    · have he : raise (s • (u -ᵥ v) +ᵥ w) = s • (raise u - raise v) + raise w := by
        funext r
        refine Fin.lastCases ?_ (fun r => ?_) r <;> simp
      rw [he]
      exact L.add_mem (L.smul_mem s (L.sub_mem hu hv)) hw
  refine top_unique fun y _ => ?_
  have hy : y = raise (fun r => y r.castSucc) - raise 0 + y (Fin.last c.dim) • raise 0 := by
    funext r
    refine Fin.lastCases ?_ (fun r => ?_) r <;> simp
  rw [hy]
  exact L.add_mem (L.sub_mem (hraise _) (hraise 0)) (L.smul_mem _ (hraise 0))

theorem affineSpan_eq_top_of_span (h : Submodule.span ℝ (c.vector ℝ '' c.placeSet) = ⊤) :
    affineSpan ℝ (pointSet c.dim c.points) = ⊤ := by
  refine top_unique fun x _ => ?_
  let p : c.placeSet → Fin c.dim → ℝ := fun i => realPoint c.dim (c.pointAt i)
  have hx : raise x ∈ Submodule.span ℝ (Set.range fun i : c.placeSet => raise (p i)) := by
    have : (Set.range fun i : c.placeSet => raise (p i)) = c.vector ℝ '' c.placeSet := by
      rw [Set.image_eq_range]
      exact congrArg Set.range (funext fun i => (vector_eq_raise _).symm)
    rw [this, h]
    trivial
  obtain ⟨w, hw⟩ := (Submodule.mem_span_range_iff_exists_fun ℝ).mp hx
  obtain ⟨hsum, hone⟩ := (sum_smul_raise_eq_iff univ w p _).mp hw
  rw [raise_last] at hone
  have hmem := affineCombination_mem_affineSpan hone p
  rw [affineCombination_eq_linear_combination _ _ _ hone, hsum] at hmem
  simp only [raise_castSucc] at hmem
  refine affineSpan_mono ℝ ?_ hmem
  rintro _ ⟨i, rfl⟩
  exact mem_pointSet.mpr ⟨i, i.2, rfl⟩

/-- Points are full when they affinely span their space. -/
theorem isFull_iff_affineSpan (hlen : ∀ p ∈ c.points, p.length = c.dim) :
    c.IsFull ↔ affineSpan ℝ (pointSet c.dim c.points) = ⊤ :=
  ⟨fun h => affineSpan_eq_top_of_span (span_change_field h.span),
    fun h => ⟨hlen, span_change_field (span_eq_top_of_affineSpan h)⟩⟩

theorem isSimplex_iff_affineIndependent (hσ : σ ∈ c.simplices) :
    IsSimplex ℚ (c.vector ℚ) σ.toFinset ↔
      AffineIndependent ℝ fun i : σ.toFinset => realPoint c.dim (c.pointAt i) := by
  have hli : LinearIndependent ℝ (fun i : σ.toFinset => c.vector ℝ i) ↔
      AffineIndependent ℝ fun i : σ.toFinset => realPoint c.dim (c.pointAt i) := by
    simp only [vector_eq_raise, linearIndependent_raise_iff]
  have hsub := toFinset_subset hσ
  obtain ⟨hp, hl, -⟩ := mem_simplices.mp hσ
  rw [← hli]
  refine ⟨fun hs => (isSimplex_change_field hs hsub).linearIndependent, fun h => ?_⟩
  refine isSimplex_change_field (K := ℝ) ⟨h, ?_⟩ hsub
  rw [List.toFinset_card_of_nodup hp.nodup, hl]
  simp

/-! ## Facets -/

/-- The linear form whose coefficients solve the equations of a hyperplane. -/
def normalForm (x : Fin (n + 1) → ℚ) : (Fin (n + 1) → ℚ) →ₗ[ℚ] ℚ where
  toFun y := ∑ r : Fin n, x r.castSucc * y r.castSucc - x (Fin.last n) * y (Fin.last n)
  map_add' y z := by
    simp only [Pi.add_apply, mul_add, Finset.sum_add_distrib]
    ring
  map_smul' t y := by
    simp only [Pi.smul_apply, smul_eq_mul, mul_left_comm _ t, ← Finset.mul_sum, ← mul_sub,
      RingHom.id_apply]

theorem normalForm_liftPoint {p : List ℤ} (hp : p.length = n) (x : Fin (n + 1) → ℚ) :
    normalForm x (liftPoint n ℚ p) = ∑ i : Fin (n + 1), entry (toVec p ++ [-1]) i * x i := by
  rw [Facet.sum_entry_row hp]
  simp [normalForm, liftPoint, mul_comm]

theorem normalForm_smul (t : ℚ) (x : Fin (n + 1) → ℚ) :
    normalForm (t • x) = t • normalForm x := by
  ext r
  simp [normalForm, mul_sub, Finset.mul_sum, mul_assoc]

theorem normalForm_zero : normalForm (0 : Fin (n + 1) → ℚ) = 0 := by
  ext r
  simp [normalForm]

theorem normalForm_injective : Function.Injective (normalForm (n := n)) := by
  intro x y h
  have hr : ∀ i, normalForm x (Pi.single i 1) = normalForm y (Pi.single i 1) := fun i => by rw [h]
  funext i
  refine Fin.lastCases ?_ (fun r => ?_) i
  · simpa [normalForm] using hr (Fin.last n)
  · simpa [normalForm, Pi.single_apply] using hr r.castSucc

theorem normalForm_surjective : Function.Surjective (normalForm (n := n)) := by
  intro f
  refine ⟨Fin.snoc (α := fun _ => ℚ) (fun r => f (Pi.single r.castSucc 1))
    (-f (Pi.single (Fin.last n) 1)), ?_⟩
  ext i
  refine Fin.lastCases ?_ (fun r => ?_) i
  · simp [normalForm]
  · simp [normalForm, Pi.single_apply]

/-- The equations of a hyperplane through points say that a form vanishes there. -/
theorem mem_nullSpace_pick (hc : c.IsFull) {l : List ℕ} (hl : ∀ i ∈ l, i < c.size)
    {x : Fin (c.dim + 1) → ℚ} :
    x ∈ nullSpace (c.dim + 1) ((Polytope.pick c.points l).map fun p => toVec p ++ [-1]) ↔
      ∀ i ∈ l, normalForm x (c.vector ℚ i) = 0 := by
  simp only [mem_nullSpace, Polytope.pick, List.forall_mem_map]
  refine forall₂_congr fun i hi => ?_
  have hform := normalForm_liftPoint (hc.length_pointAt (hl i hi)) x
  exact ⟨fun h => hform.trans h, fun h => hform.symm.trans h⟩

theorem hasWidth_pick (hc : c.IsFull) {l : List ℕ} (hl : ∀ i ∈ l, i < c.size) :
    HasWidth (c.dim + 1) ((Polytope.pick c.points l).map fun p => toVec p ++ [-1]) :=
  Facet.hasWidth_rows (Polytope.pick_length (p := .ofPoints c.dim c.points) hc.length hl)

theorem exists_through (hc : c.IsFull) {s : Finset ℕ} (hs : IsSimplex ℚ (c.vector ℚ) s)
    (hI : s ⊆ c.placeSet) {k : ℕ} (hk : k ∈ s) {l : List ℕ} (hl : l.toFinset = s.erase k) :
    ∃ f, Facet.through? c.dim (Polytope.pick c.points l) = some f := by
  have hmem : ∀ i, i ∈ l ↔ i ≠ k ∧ i ∈ s := fun i => by
    rw [← List.mem_toFinset, hl, mem_erase]
  have hlt : ∀ i ∈ l, i < c.size := fun i hi => mem_placeSet.mp (hI ((hmem i).mp hi).2)
  obtain ⟨v, hv⟩ := normalForm_surjective (coord (K := ℚ) (c.vector ℚ) s k)
  have hvmem := (mem_nullSpace_pick hc hlt).mpr fun i hi => by
    rw [hv, hs.coord_other ((hmem i).mp hi).2 ((hmem i).mp hi).1]
  have hfin : Module.finrank ℚ (nullSpace (c.dim + 1)
      ((Polytope.pick c.points l).map fun p => toVec p ++ [-1])) = 1 := by
    refine finrank_eq_one_iff'.mpr ⟨⟨v, hvmem⟩, fun h0 => ?_, ?_⟩
    · have hzero : normalForm v = 0 := by
        rw [Subtype.mk.inj h0, normalForm_zero]
      have hone := hs.coord_self hk
      rw [← hv, hzero] at hone
      exact zero_ne_one hone
    · rintro ⟨x, hx⟩
      have hvanish : ∀ i ∈ s, i ≠ k → normalForm x (c.vector ℚ i) = 0 := fun i hi hik =>
        (mem_nullSpace_pick hc hlt).mp hx i ((hmem i).mpr ⟨hik, hi⟩)
      refine ⟨normalForm x (c.vector ℚ k), Subtype.ext (normalForm_injective ?_)⟩
      refine LinearMap.ext fun y => ?_
      rw [hs.eq_smul_coord hvanish y hk, ← hv]
      simp only [SetLike.mk_smul_mk, normalForm_smul, LinearMap.smul_apply, smul_eq_mul]
  rw [finrank_nullSpace (hasWidth_pick hc hlt)] at hfin
  obtain ⟨u, hu⟩ := List.length_eq_one_iff.mp hfin
  rw [Facet.through?, hu]
  exact ⟨_, rfl⟩

/-- No point lies beyond the hyperplane through the vertices of a simplex but one. -/
structure Bounding (c : Configuration) (s : Finset ℕ) (k : ℕ) : Prop where
  simplex : IsSimplex ℝ (c.vector ℝ) s
  subset : s ⊆ c.placeSet
  mem : k ∈ s
  nonneg : ∀ j ∈ c.placeSet, 0 ≤ coord (K := ℝ) (c.vector ℝ) s k (c.vector ℝ j)

/-- There is a facet through the vertices of a simplex but one wherever no point lies beyond. -/
def HasFacets (c : Configuration) : Prop :=
  ∀ s k, c.Bounding s k →
    ∃ f ∈ c.facets, ∀ i ∈ s, i ≠ k → dotInt f.normal (c.pointAt i) = f.offset

section Boundary

variable {s : Finset ℕ} {k : ℕ} {f : Facet} (hc : c.IsFull) (hs : c.Bounding s k)

include hc hs

/-- A hyperplane through all vertices but one, with no point beyond, has the points on one side. -/
theorem one_side_of_vanishing
    (hzero : ∀ i ∈ s, i ≠ k → dotInt f.normal (c.pointAt i) = f.offset) :
    (∀ p ∈ c.points, dotInt f.normal p ≤ f.offset) ∨
      ∀ p ∈ c.points, f.offset ≤ dotInt f.normal p := by
  have hvanish : ∀ i ∈ s, i ≠ k → f.form c.dim ℝ (c.vector ℝ i) = 0 := fun i hi hik => by
    rw [hc.form_vector f ℝ (mem_placeSet.mp (hs.subset hi)), hzero i hi hik, sub_self,
      Int.cast_zero]
  have hmul : ∀ j ∈ c.placeSet, ((f.offset - dotInt f.normal (c.pointAt j) : ℤ) : ℝ) =
      f.form c.dim ℝ (c.vector ℝ k) * coord (c.vector ℝ) s k (c.vector ℝ j) := fun j hj => by
    rw [← hc.form_vector f ℝ (mem_placeSet.mp hj), hs.simplex.eq_smul_coord hvanish _ hs.mem]
  have hat : ∀ p ∈ c.points, ∃ j ∈ c.placeSet, c.pointAt j = p := fun p hp => by
    obtain ⟨j, hj, rfl⟩ := List.mem_iff_getElem.mp hp
    exact ⟨j, mem_placeSet.mpr hj, List.getD_eq_getElem _ _ hj⟩
  rcases le_total 0 (f.form c.dim ℝ (c.vector ℝ k)) with h | h
  · refine Or.inl fun p hp => ?_
    obtain ⟨j, hj, rfl⟩ := hat p hp
    have := mul_nonneg h (hs.nonneg j hj)
    rw [← hmul j hj] at this
    exact sub_nonneg.mp (Int.cast_nonneg_iff.mp this)
  · refine Or.inr fun p hp => ?_
    obtain ⟨j, hj, rfl⟩ := hat p hp
    have := mul_nonpos_of_nonpos_of_nonneg h (hs.nonneg j hj)
    rw [← hmul j hj] at this
    exact sub_nonpos.mp (Int.cast_nonpos.mp this)

/-- On the line a simplex with no point beyond one of its ends has an end of the hull there. -/
theorem exists_end (h1 : c.dim = 1) : ∃ f ∈ (Polytope.ofPoints c.dim c.points).ends,
    ∀ i ∈ s, i ≠ k → dotInt f.normal (c.pointAt i) = f.offset := by
  rw [Polytope.ends]
  set xs := (Polytope.ofPoints c.dim c.points).coordinates 0 with hxs
  have hcard : (s.erase k).card = 1 := by
    rw [card_erase_of_mem hs.mem, hs.simplex.card]
    simp [h1]
  obtain ⟨i, hi⟩ := card_eq_one.mp hcard
  have honly : ∀ j ∈ s, j ≠ k → j = i := fun j hj hjk =>
    mem_singleton.mp (hi ▸ mem_erase.mpr ⟨hjk, hj⟩)
  have hi : i < c.size :=
    mem_placeSet.mp (hs.subset (mem_of_mem_erase (hi ▸ mem_singleton_self i : i ∈ s.erase k)))
  have hat : ∀ p ∈ c.points, ∃ x ∈ xs, p = [x] := fun p hp => by
    obtain ⟨x, rfl⟩ := List.length_eq_one_iff.mp ((hc.length p hp).trans h1)
    exact ⟨x, List.mem_map.mpr ⟨[x], hp, rfl⟩, rfl⟩
  obtain ⟨y, hy, hiy⟩ := hat _ (pointAt_mem hi)
  have hall : ∀ x ∈ xs, [x] ∈ c.points := fun x hx => by
    obtain ⟨p, hp, rfl⟩ := List.mem_map.mp hx
    obtain ⟨x, -, rfl⟩ := hat p hp
    exact hp
  rcases one_side_of_vanishing (f := ⟨[1], y⟩) hc hs fun j hj hjk => by
    rw [honly j hj hjk, hiy]
    simp [dotInt] with h | h
  · refine ⟨⟨[1], Polytope.maximum xs⟩, by simp, fun j hj hjk => ?_⟩
    rw [honly j hj hjk, hiy, Polytope.maximum_eq hy fun x hx => ?_]
    · simp [dotInt]
    · simpa [dotInt] using h [x] (hall x hx)
  · refine ⟨⟨[-1], -Polytope.minimum xs⟩, by simp, fun j hj hjk => ?_⟩
    rw [honly j hj hjk, hiy, Polytope.minimum_eq hy fun x hx => ?_]
    · simp [dotInt]
    · simpa [dotInt] using h [x] (hall x hx)

theorem exists_facet_through {L : List (List ℕ)} {fs : List Facet} {l : List ℕ}
    (h : (Polytope.ofPoints c.dim c.points).facetsThrough L = .ok fs) (hl : l ∈ L)
    (hfin : l.toFinset = s.erase k) :
    ∃ f ∈ fs, ∀ i ∈ s, i ≠ k → dotInt f.normal (c.pointAt i) = f.offset := by
  have hlt : ∀ i ∈ l, i < c.size := fun i hi => by
    rw [← List.mem_toFinset, hfin] at hi
    exact mem_placeSet.mp (hs.subset (mem_of_mem_erase hi))
  obtain ⟨f, hf⟩ := exists_through hc (isSimplex_change_field hs.simplex hs.subset) hs.subset
    hs.mem hfin
  obtain ⟨-, -, hzero⟩ := Facet.through_eq_some
    (Polytope.pick_length (p := .ofPoints c.dim c.points) hc.length hlt) hf
  have hzero : ∀ i ∈ s, i ≠ k → dotInt f.normal (c.pointAt i) = f.offset := fun i hi hik => by
    refine hzero _ (List.mem_map.mpr ⟨i, ?_, rfl⟩)
    rw [← List.mem_toFinset, hfin]
    exact mem_erase.mpr ⟨hik, hi⟩
  obtain ⟨f', hf', hsup⟩ := (Polytope.facetsThrough_eq_ok h).2 l hl f hf
  refine ⟨f', hf', fun i hi hik => ?_⟩
  rcases Facet.supporting_eq_ok hsup with ⟨rfl, -⟩ | ⟨rfl, -⟩
  · exact hzero i hi hik
  · rw [Facet.neg, dotInt_neg, hzero i hi hik]

theorem sort_mem_facetSimplices : (s.erase k).sort ∈ Polytope.facetSimplices c.dim c.points := by
  have hlt : ∀ i ∈ (s.erase k).sort, i < c.size := fun i hi =>
    mem_placeSet.mp (hs.subset (mem_of_mem_erase ((mem_sort _).mp hi)))
  refine List.mem_filter.mpr ⟨mem_choices_range.mpr ⟨(sortedLT_sort _).pairwise, ?_, hlt⟩, ?_⟩
  · rw [length_sort, card_erase_of_mem hs.mem, hs.simplex.card]
    simp
  · obtain ⟨f, hf⟩ := exists_through hc (isSimplex_change_field hs.simplex hs.subset) hs.subset
      hs.mem (l := (s.erase k).sort) (by simp)
    obtain ⟨-, -, hzero⟩ := Facet.through_eq_some
      (Polytope.pick_length (p := .ofPoints c.dim c.points) hc.length hlt) hf
    have hside := one_side_of_vanishing (f := f) hc hs fun i hi hik =>
      hzero _ (List.mem_map.mpr ⟨i, (mem_sort _).mpr (mem_erase.mpr ⟨hik, hi⟩), rfl⟩)
    rw [Polytope.supports, hf]
    simpa using hside

end Boundary

theorem IsFull.hasFacets (hc : c.IsFull)
    (h : (Polytope.ofPoints c.dim c.points).facets = .ok c.facets) : c.HasFacets := by
  intro s k hs
  obtain ⟨-, -, ⟨h1, h⟩ | ⟨-, h⟩⟩ := Polytope.facets_eq_ok h
  · rw [mapM_eq_self (fun _ _ => Facet.stored_eq_ok) h]
    exact exists_end hc hs h1
  · exact exists_facet_through hc hs h (sort_mem_facetSimplices hc hs) (by simp)

/-! ## The interior -/

theorem form_raise (f : Facet) (x : Fin n → ℝ) :
    f.form n ℝ (raise x) = f.offset - ∑ r : Fin n, ((f.normal.getD r 0 : ℤ) : ℝ) * x r := by
  simp [Facet.form_apply]

theorem continuous_form_raise (f : Facet) : Continuous fun x : Fin n → ℝ => f.form n ℝ (raise x) := by
  simp only [form_raise]
  fun_prop

theorem isOpen_forms_pos (fs : List Facet) :
    IsOpen { y : Fin n → ℝ | ∀ f ∈ fs, 0 < f.form n ℝ (raise y) } := by
  have : { y : Fin n → ℝ | ∀ f ∈ fs, 0 < f.form n ℝ (raise y) } =
      ⋂ f ∈ fs.toFinset, { y | 0 < f.form n ℝ (raise y) } := by
    ext y
    simp
  rw [this]
  exact isOpen_biInter_finset fun f _ => isOpen_lt continuous_const (continuous_form_raise f)

theorem convex_normal_le (u : List ℤ) (d : ℝ) :
    Convex ℝ { x : Fin n → ℝ | ∑ r : Fin n, ((u.getD r 0 : ℤ) : ℝ) * x r ≤ d } := by
  refine convex_halfSpace_le ⟨fun x y => ?_, fun t x => ?_⟩ _
  · simp [mul_add, Finset.sum_add_distrib]
  · simp only [Pi.smul_apply, smul_eq_mul, Finset.mul_sum]
    exact Finset.sum_congr rfl fun r _ => by ring

theorem form_vector_nonneg (hc : c.IsFull) {f : Facet} (hf : f.Supports c.dim c.points) :
    ∀ i ∈ c.placeSet, 0 ≤ f.form c.dim ℝ (c.vector ℝ i) := by
  intro i hi
  have hi := mem_placeSet.mp hi
  rw [hc.form_vector f ℝ hi]
  exact Int.cast_nonneg (sub_nonneg.mpr (hf.le _ (pointAt_mem hi)))

theorem form_nonneg_of_mem_convexHull (hc : c.IsFull) {f : Facet}
    (hf : f.Supports c.dim c.points) {x : Fin c.dim → ℝ}
    (hx : x ∈ convexHull ℝ (pointSet c.dim c.points)) : 0 ≤ f.form c.dim ℝ (raise x) := by
  rw [form_raise, sub_nonneg]
  refine convexHull_min (fun y hy => ?_) (convex_normal_le f.normal f.offset) hx
  obtain ⟨i, hi, rfl⟩ := mem_pointSet.mp hy
  have hnonneg := form_vector_nonneg hc hf i hi
  rw [vector_eq_raise, form_raise, sub_nonneg] at hnonneg
  exact hnonneg

theorem mem_convexHull_of_bounding (hc : c.IsFull) {x : Fin c.dim → ℝ}
    (hx : ∀ s k, c.Bounding s k → 0 ≤ coord (K := ℝ) (c.vector ℝ) s k (raise x)) :
    x ∈ convexHull ℝ (pointSet c.dim c.points) := by
  have hhull : InHull ℝ (c.vector ℝ) c.placeSet (raise x) := fun s hI hs k hk hpos =>
    hx s k ⟨hs, hI, hk, hpos⟩
  obtain ⟨w, hw⟩ := exists_isGeneric (K := ℝ) (c.vector ℝ) c.placeSet
  obtain ⟨s, hs, hcone⟩ :=
    hw.induces.exists_mem (span_change_field hc.span) (c.level_pos ℝ) hhull
  rw [← hullAt_placeSet]
  exact hullAt_mono hs.subset ((mem_hullAt_iff_inCone hs.simplex).mpr hcone)

theorem mem_interior_of_bounding (hc : c.IsFull) {x : Fin c.dim → ℝ}
    (hx : ∀ s k, c.Bounding s k → 0 < coord (K := ℝ) (c.vector ℝ) s k (raise x)) :
    x ∈ interior (convexHull ℝ (pointSet c.dim c.points)) := by
  classical
  let pairs : Finset (Finset ℕ × ℕ) :=
    (c.placeSet.powerset ×ˢ c.placeSet).filter fun q => c.Bounding q.1 q.2
  have hopen : IsOpen (⋂ q ∈ pairs,
      { y : Fin c.dim → ℝ | 0 < coord (K := ℝ) (c.vector ℝ) q.1 q.2 (raise y) }) := by
    refine isOpen_biInter_finset fun q _ => isOpen_lt continuous_const ?_
    refine (LinearMap.continuous_of_finiteDimensional _).comp (continuous_pi fun r => ?_)
    refine Fin.lastCases ?_ (fun r => ?_) r
    · simpa using continuous_const
    · simpa using continuous_apply r
  refine mem_interior.mpr ⟨_, fun y hy => ?_, hopen, ?_⟩
  · refine mem_convexHull_of_bounding hc fun s k hs => ?_
    have hq : (s, k) ∈ pairs := mem_filter.mpr
      ⟨mem_product.mpr ⟨mem_powerset.mpr hs.subset, hs.subset hs.mem⟩, hs⟩
    exact (Set.mem_iInter₂.mp hy (s, k) hq).le
  · exact Set.mem_iInter₂.mpr fun q hq => hx _ _ (mem_filter.mp hq).2

section Interior

variable (hc : c.IsFull) (hsup : c.Supported) (hfacets : c.HasFacets) {x : Fin c.dim → ℝ}

include hc hsup hfacets

theorem mem_convexHull_of_form_nonneg (hx : ∀ f ∈ c.facets, 0 ≤ f.form c.dim ℝ (raise x)) :
    x ∈ convexHull ℝ (pointSet c.dim c.points) := by
  refine mem_convexHull_of_bounding hc fun s k hs => ?_
  obtain ⟨f, hf, hzero⟩ := hfacets s k hs
  obtain ⟨t, ht, hmul⟩ :=
    exists_form_eq_mul_coord hc (hsup f hf) hs.simplex hs.subset hs.mem hzero
  exact nonneg_of_mul_nonneg_right (hmul _ ▸ hx f hf) ht

theorem mem_interior_iff : x ∈ interior (convexHull ℝ (pointSet c.dim c.points)) ↔
    ∀ f ∈ c.facets, 0 < f.form c.dim ℝ (raise x) := by
  constructor
  · intro hx f hf
    have hnonneg := fun {y} => form_nonneg_of_mem_convexHull (x := y) hc (hsup f hf)
    refine lt_of_le_of_ne (hnonneg (interior_subset hx)) fun h0 => ?_
    let u : Fin c.dim → ℝ := fun r => ((f.normal.getD r 0 : ℤ) : ℝ)
    have hstep : ∀ ε : ℝ, f.form c.dim ℝ (raise (x + ε • u)) = -(ε * ∑ r, u r * u r) := by
      intro ε
      rw [form_raise] at h0 ⊢
      simp only [Pi.add_apply, Pi.smul_apply, smul_eq_mul, mul_add, Finset.sum_add_distrib,
        Finset.mul_sum]
      have : ∀ r, u r * (ε * u r) = ε * (u r * u r) := fun r => by ring
      simp only [u, this] at h0 ⊢
      linarith
    obtain ⟨ε, hpos, hmem⟩ := exists_step_of_mem_interior hx u
    have hu : ∑ r, u r * u r = 0 := by
      refine le_antisymm ?_ (Finset.sum_nonneg fun r _ => mul_self_nonneg _)
      have := hnonneg hmem
      rw [hstep ε] at this
      nlinarith [hpos]
    have hu0 : ∀ r, u r = 0 := fun r => by
      simpa using (Finset.sum_eq_zero_iff_of_nonneg fun r _ => mul_self_nonneg (u r)).mp hu r
    refine (hsup f hf).ne_zero ℝ (LinearMap.ext fun y => ?_)
    rw [form_raise] at h0
    rw [Facet.form_apply]
    simp only [u] at hu0
    simp only [hu0, zero_mul, Finset.sum_const_zero, sub_zero] at h0 ⊢
    rw [← h0, zero_mul, LinearMap.zero_apply]
  · intro hx
    refine mem_interior.mpr ⟨_, fun y hy => ?_, isOpen_forms_pos c.facets, hx⟩
    exact mem_convexHull_of_form_nonneg hc hsup hfacets fun f hf => (hy f hf).le

/-- A lattice point is strictly inside the facets when it is inside the convex hull, if the products
are words. -/
theorem strictlyInside_iff {b : List ℤ} (hb : b.length = c.dim)
    (hword : ∀ f ∈ c.facets, isWord (dotInt f.normal b) = true) :
    strictlyInside c.facets b = true ↔
      realPoint c.dim b ∈ interior (convexHull ℝ (pointSet c.dim c.points)) := by
  rw [mem_interior_iff hc hsup hfacets, strictlyInside, List.all_eq_true]
  refine forall₂_congr fun f hf => ?_
  rw [decide_eq_true_iff, dotWord, wrap_of_isWord (hword f hf), raise_realPoint,
    Facet.form_liftPoint ℝ hb, Int.cast_pos, sub_pos]

theorem mem_convexHull_iff : x ∈ convexHull ℝ (pointSet c.dim c.points) ↔
    ∀ f ∈ c.facets, 0 ≤ f.form c.dim ℝ (raise x) :=
  ⟨fun hx f hf => form_nonneg_of_mem_convexHull hc (hsup f hf) hx,
    mem_convexHull_of_form_nonneg hc hsup hfacets⟩

/-- A lattice point is on the boundary of the facets when it is on that of the convex hull, if the
products are words. -/
theorem onBoundary_iff {b : List ℤ} (hb : b.length = c.dim)
    (hword : ∀ f ∈ c.facets, isWord (dotInt f.normal b) = true) :
    onBoundary c.facets b = true ↔ realPoint c.dim b ∈ convexHull ℝ (pointSet c.dim c.points) ∧
      realPoint c.dim b ∉ interior (convexHull ℝ (pointSet c.dim c.points)) := by
  rw [onBoundary, Bool.and_eq_true, mem_convexHull_iff hc hsup hfacets,
    ← strictlyInside_iff hc hsup hfacets hb hword, strictlyInside, List.all_eq_true,
    List.any_eq_true, List.all_eq_true]
  have hform : ∀ f ∈ c.facets, (0 ≤ f.form c.dim ℝ (raise (realPoint c.dim b)) ↔
      dotWord f.normal b ≤ f.offset) := by
    intro f hf
    rw [dotWord, wrap_of_isWord (hword f hf), raise_realPoint, Facet.form_liftPoint ℝ hb,
      Int.cast_nonneg_iff, sub_nonneg]
  simp only [decide_eq_true_eq, beq_iff_eq, not_forall, not_lt, exists_prop]
  constructor
  · rintro ⟨hle, f, hf, he⟩
    exact ⟨fun f hf => (hform f hf).mpr (hle f hf), f, hf, he.ge⟩
  · rintro ⟨hle, f, hf, hge⟩
    have hle : ∀ f ∈ c.facets, dotWord f.normal b ≤ f.offset := fun f hf => (hform f hf).mp (hle f hf)
    exact ⟨hle, f, hf, le_antisymm (hle f hf) hge⟩

end Interior

end Configuration

end Orthant
