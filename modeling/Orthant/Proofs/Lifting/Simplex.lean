import Mathlib

/-! # Simplices of a vector configuration

A configuration is a family of vectors. A set of places whose vectors form a basis is a simplex.
Heights on its vertices extend to one linear form, the plane through the lifted vertices, and every
vector has coordinates with respect to it.
-/

namespace Orthant.Lifting

variable {K E ι : Type*} [Field K] [AddCommGroup E] [Module K E]

/-- Places whose vectors form a basis. -/
structure IsSimplex (K : Type*) {E ι : Type*} [Field K] [AddCommGroup E] [Module K E]
    (a : ι → E) (σ : Finset ι) : Prop where
  indep : LinearIndepOn K a (σ : Set ι)
  card : σ.card = Module.finrank K E

theorem IsSimplex.linearIndependent {a : ι → E} {σ : Finset ι} (h : IsSimplex K a σ) :
    LinearIndependent K fun i : σ => a i :=
  h.indep

theorem IsSimplex.eq_of_subset {a : ι → E} {σ τ : Finset ι} (hσ : IsSimplex K a σ)
    (hτ : IsSimplex K a τ) (h : σ ⊆ τ) : σ = τ :=
  Finset.eq_of_subset_of_card_le h (by rw [hσ.card, hτ.card])

/-- Simplices that share all vertices but one differ by the exchange of a vertex. -/
theorem IsSimplex.eq_insert [DecidableEq ι] {a : ι → E} {σ τ : Finset ι} (hσ : IsSimplex K a σ)
    (hτ : IsSimplex K a τ) {k : ι} (hk : k ∈ σ) (h : σ.erase k ⊆ τ) :
    ∃ b, b ∉ σ.erase k ∧ τ = insert b (σ.erase k) := by
  have hc : (σ.erase k).card < τ.card := by
    rw [hτ.card, ← hσ.card]; exact Finset.card_erase_lt_of_mem hk
  obtain ⟨b, hb, hbσ⟩ := Finset.exists_mem_notMem_of_card_lt_card hc
  refine ⟨b, hbσ, (Finset.eq_of_subset_of_card_le (Finset.insert_subset hb h) ?_).symm⟩
  rw [Finset.card_insert_of_notMem hbσ, Finset.card_erase_add_one hk, hσ.card, hτ.card]

theorem isSimplex_of_dual [DecidableEq ι] {a : ι → E} {σ : Finset ι}
    (hc : σ.card = Module.finrank K E) (f : ι → E →ₗ[K] K)
    (hf : ∀ i ∈ σ, ∀ k ∈ σ, f i (a k) = if k = i then 1 else 0) : IsSimplex K a σ := by
  refine ⟨?_, hc⟩
  rw [linearIndepOn_finset_iff]
  intro g hg i hi
  have := congrArg (f i) hg
  rw [map_sum, map_zero, Finset.sum_eq_single_of_mem i hi] at this
  · simpa [hf i hi i hi] using this
  · intro k hk hki
    rw [map_smul, hf i hi k hk, if_neg hki, smul_zero]

theorem exists_isSimplex {a : ι → E} {J : Finset ι} (hJ : Submodule.span K (a '' J) = ⊤) :
    ∃ σ ⊆ J, IsSimplex K a σ := by
  classical
  obtain ⟨b, hbJ, -, hspan, hind⟩ := exists_linearIndepOn_extension
    (linearIndepOn_empty K a) (Set.empty_subset (J : Set ι))
  have hb : ((J.filter fun j => j ∈ b : Finset ι) : Set ι) = b := by
    ext j
    simpa using fun hj => by simpa using hbJ hj
  refine ⟨J.filter fun j => j ∈ b, Finset.filter_subset _ _, by rwa [hb], ?_⟩
  have htop : Submodule.span K (a '' b) = ⊤ := by
    rw [eq_top_iff, ← hJ]
    exact Submodule.span_le.mpr hspan
  rw [← hb] at hind htop
  have := finrank_span_eq_card (LinearIndepOn.linearIndependent hind)
  rw [← Set.image_eq_range, htop, finrank_top] at this
  simpa using this.symm

section Plane

variable [FiniteDimensional K E]

theorem IsSimplex.span_eq_top {a : ι → E} {σ : Finset ι} (h : IsSimplex K a σ) :
    Submodule.span K (a '' σ) = ⊤ := by
  have := h.linearIndependent.span_eq_top_of_card_eq_finrank' (by simpa using h.card)
  rw [Set.image_eq_range]
  exact this

noncomputable def IsSimplex.basis {a : ι → E} {σ : Finset ι} (h : IsSimplex K a σ) :
    Module.Basis σ K E :=
  Module.Basis.mk h.linearIndependent (by
    have := h.span_eq_top
    rw [Set.image_eq_range] at this
    exact this.ge)

theorem IsSimplex.basis_apply {a : ι → E} {σ : Finset ι} (h : IsSimplex K a σ) (i : σ) :
    h.basis i = a i := by
  rw [basis, Module.Basis.mk_apply]

open Classical in
/-- The linear form through the lifted vertices of a simplex, zero for other sets. -/
noncomputable def plane (a : ι → E) (σ : Finset ι) (w : ι → K) : E →ₗ[K] K :=
  if h : IsSimplex K a σ then h.basis.constr K fun i => w i else 0

noncomputable def coord [DecidableEq ι] (a : ι → E) (σ : Finset ι) (i : ι) : E →ₗ[K] K :=
  plane a σ (Pi.single i 1)

variable {a : ι → E} {σ τ : Finset ι} {w : ι → K}

namespace IsSimplex

theorem plane_vertex (h : IsSimplex K a σ) {i : ι} (hi : i ∈ σ) : plane a σ w (a i) = w i := by
  rw [plane, dif_pos h]
  have := h.basis.constr_basis K (fun i => w i) ⟨i, hi⟩
  rwa [h.basis_apply] at this

theorem ext_form (h : IsSimplex K a σ) {f g : E →ₗ[K] K}
    (hfg : ∀ i ∈ σ, f (a i) = g (a i)) : f = g :=
  LinearMap.ext_on h.span_eq_top (by rintro _ ⟨i, hi, rfl⟩; exact hfg i hi)

theorem eq_plane (h : IsSimplex K a σ) {f : E →ₗ[K] K} (hf : ∀ i ∈ σ, f (a i) = w i) :
    f = plane a σ w :=
  h.ext_form fun i hi => by rw [hf i hi, h.plane_vertex hi]

theorem plane_add_smul (h : IsSimplex K a σ) (w v : ι → K) (s : K) :
    plane a σ (w + s • v) = plane a σ w + s • plane a σ v :=
  (h.eq_plane fun i hi => by simp [h.plane_vertex hi]).symm

variable [DecidableEq ι]

theorem coord_vertex (h : IsSimplex K a σ) {i k : ι} (hk : k ∈ σ) :
    coord (K := K) a σ i (a k) = if k = i then 1 else 0 := by
  rw [coord, h.plane_vertex hk, Pi.single_apply]

theorem coord_self (h : IsSimplex K a σ) {i : ι} (hi : i ∈ σ) :
    coord (K := K) a σ i (a i) = 1 := by
  rw [h.coord_vertex hi, if_pos rfl]

theorem coord_other (h : IsSimplex K a σ) {i k : ι} (hk : k ∈ σ) (hki : k ≠ i) :
    coord (K := K) a σ i (a k) = 0 := by
  rw [h.coord_vertex hk, if_neg hki]

theorem sum_coord (h : IsSimplex K a σ) (x : E) :
    ∑ i ∈ σ, coord (K := K) a σ i x • a i = x := by
  let f : E →ₗ[K] E := ∑ i ∈ σ, (coord (K := K) a σ i).smulRight (a i)
  have hf : f = LinearMap.id := by
    refine LinearMap.ext_on h.span_eq_top ?_
    rintro _ ⟨k, hk, rfl⟩
    simp only [f, LinearMap.sum_apply, LinearMap.smulRight_apply, LinearMap.id_apply]
    rw [Finset.sum_eq_single_of_mem k hk fun i _ hik => by rw [h.coord_other hk hik.symm, zero_smul]]
    rw [h.coord_self hk, one_smul]
  have := congrArg (· x) hf
  simpa [f] using this

theorem apply_eq_sum (h : IsSimplex K a σ) (f : E →ₗ[K] K) (x : E) :
    f x = ∑ i ∈ σ, coord a σ i x * f (a i) := by
  conv_lhs => rw [← h.sum_coord x]
  simp

theorem plane_eq_sum (h : IsSimplex K a σ) (x : E) :
    plane a σ w x = ∑ i ∈ σ, coord a σ i x * w i := by
  rw [h.apply_eq_sum]
  exact Finset.sum_congr rfl fun i hi => by rw [h.plane_vertex hi]

/-- A linear form that vanishes at all vertices but one is a multiple of the coordinate there. -/
theorem eq_smul_coord (h : IsSimplex K a σ) {f : E →ₗ[K] K} {k : ι}
    (hf : ∀ i ∈ σ, i ≠ k → f (a i) = 0) (x : E) (hk : k ∈ σ) :
    f x = f (a k) * coord a σ k x := by
  rw [h.apply_eq_sum f x, Finset.sum_eq_single_of_mem k hk fun i hi hik => by
    rw [hf i hi hik, mul_zero], mul_comm]

end IsSimplex

variable [DecidableEq ι]

/-- A vertex may be exchanged for a vector whose coordinate there is not zero. -/
theorem IsSimplex.exchange (h : IsSimplex K a σ) {k b : ι} (hk : k ∈ σ)
    (hb : coord (K := K) a σ k (a b) ≠ 0) : IsSimplex K a (insert b (σ.erase k)) := by
  have hbσ : b ∉ σ.erase k := fun hm =>
    hb (h.coord_other (Finset.mem_of_mem_erase hm) (Finset.ne_of_mem_erase hm))
  refine isSimplex_of_dual ?_ (fun i => if i = b then (coord (K := K) a σ k (a b))⁻¹ • coord a σ k
    else coord a σ i - (coord (K := K) a σ i (a b) / coord (K := K) a σ k (a b)) • coord a σ k) ?_
  · rw [Finset.card_insert_of_notMem hbσ, Finset.card_erase_add_one hk, h.card]
  · intro i hi j hj
    simp only [Finset.mem_insert] at hi hj
    rcases hj with rfl | hj
    · by_cases hij : i = j
      · subst hij; simp [hb]
      · simp [hij, Ne.symm hij, hb]
    · have hjb : j ≠ b := fun e => hbσ (e ▸ hj)
      have hjk := h.coord_other (Finset.mem_of_mem_erase hj) (Finset.ne_of_mem_erase hj)
      rcases hi with rfl | hi
      · simp [hjk, hjb]
      · have hib : i ≠ b := fun e => hbσ (e ▸ hi)
        simp [hib, hjk, h.coord_vertex (Finset.mem_of_mem_erase hj)]

end Plane

end Orthant.Lifting
