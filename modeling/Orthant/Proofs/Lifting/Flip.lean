import Orthant.Proofs.Lifting.Fold

/-! # Flips

The height above a simplex is a form on heights. A form that bounds the heights of a triangulation
is an affine dependence, its circuit. Where it vanishes and all other conditions hold strictly, the
heights behind it induce the flip on the circuit.
-/

set_option linter.unusedSectionVars false

open Filter Topology

namespace Orthant.Lifting

variable {K E ι : Type*} [Field K] [LinearOrder K] [IsStrictOrderedRing K]
  [AddCommGroup E] [Module K E] [FiniteDimensional K E] [DecidableEq ι]

/-- The height above a simplex as a form on heights, by its coefficients. -/
noncomputable def form (a : ι → E) (σ : Finset ι) (j : ι) (i : ι) : K :=
  height a σ j (Pi.single i 1)

/-- The places where a form does not vanish. -/
def circuit (I : Finset ι) (g : ι → K) : Finset ι := I.filter fun i => g i ≠ 0

/-- The simplices around a face of the circuit that misses a positive place give way to those around
a face that misses a negative one. -/
def flipped (I : Finset ι) (T : Set (Finset ι)) (g : ι → K) : Set (Finset ι) :=
  { τ | τ ∈ T ∧ ∀ z ∈ I, 0 < g z → ¬ (circuit I g).erase z ⊆ τ } ∪
  { τ | ∃ σ ∈ T, ∃ z ∈ I, 0 < g z ∧ (circuit I g).erase z ⊆ σ ∧ ∃ z' ∈ I, g z' < 0 ∧
      τ = (circuit I g).erase z' ∪ (σ \ (circuit I g).erase z) }

variable {a : ι → E} {I σ τ : Finset ι} {w v p : ι → K} {x : E} {T : Set (Finset ι)} {g : ι → K}

theorem mem_circuit {i : ι} : i ∈ circuit I g ↔ i ∈ I ∧ g i ≠ 0 := Finset.mem_filter

theorem IsSimplex.coord_eq_zero (h : IsSimplex K a σ) {i : ι} (hi : i ∉ σ) :
    coord (K := K) a σ i = 0 :=
  h.ext_form fun k hk => by
    rw [h.coord_other hk (ne_of_mem_of_not_mem hk hi), LinearMap.zero_apply]

theorem form_eq (j i : ι) :
    form (K := K) a σ j i = (if i = j then 1 else 0) - coord a σ i (a j) := by
  rw [form, height, Pi.single_apply, coord]
  simp only [eq_comm]

theorem IsSimplex.form_outside (h : IsSimplex K a σ) {i j : ι} (hi : i ∉ σ) (hij : i ≠ j) :
    form (K := K) a σ j i = 0 := by
  rw [form_eq, if_neg hij, h.coord_eq_zero hi, LinearMap.zero_apply, sub_zero]

theorem IsSimplex.form_self (h : IsSimplex K a σ) {j : ι} (hj : j ∉ σ) :
    form (K := K) a σ j j = 1 := by
  rw [form_eq, if_pos rfl, h.coord_eq_zero hj, LinearMap.zero_apply, sub_zero]

theorem IsSimplex.height_eq_sum (h : IsSimplex K a σ) (hI : σ ⊆ I) {j : ι} (hj : j ∈ I)
    (w : ι → K) : height a σ j w = ∑ i ∈ I, form a σ j i * w i := by
  simp only [form_eq, sub_mul, Finset.sum_sub_distrib, ite_mul, one_mul, zero_mul]
  rw [Finset.sum_ite_eq' I j, if_pos hj, height, h.plane_eq_sum]
  congr 1
  exact Finset.sum_subset hI fun i _ hi => by
    rw [h.coord_eq_zero hi, LinearMap.zero_apply, zero_mul]

theorem IsSimplex.sum_form (h : IsSimplex K a σ) (hI : σ ⊆ I) {j : ι} (hj : j ∈ I) :
    ∑ i ∈ I, form (K := K) a σ j i • a i = 0 := by
  simp only [form_eq, sub_smul, Finset.sum_sub_distrib, ite_smul, one_smul, zero_smul]
  rw [Finset.sum_ite_eq' I j, if_pos hj, sub_eq_zero]
  conv_lhs => rw [← h.sum_coord (a j)]
  exact Finset.sum_subset hI fun i _ hi => by
    rw [h.coord_eq_zero hi, LinearMap.zero_apply, zero_smul]

theorem IsSimplex.form_exchange (hσ : IsSimplex K a σ) {k b : ι} (hk : k ∈ σ)
    (hτ : IsSimplex K a (insert b (σ.erase k))) :
    form (K := K) a σ b =
      (-coord (K := K) a σ k (a b)) • form a (insert b (σ.erase k)) k := by
  funext i
  have := hσ.height_exchange hk hτ (Pi.single i 1)
  rw [Pi.smul_apply, smul_eq_mul, form, form]
  linarith

section Dependence

variable (hI : ∀ i ∉ I, g i = 0) (hdep : ∑ i ∈ I, g i • a i = 0)

include hI hdep

theorem IsSimplex.not_circuit_subset (h : IsSimplex K a σ) (hg : ∃ i, g i ≠ 0) :
    ¬ circuit I g ⊆ σ := by
  intro hsub
  obtain ⟨i, hi⟩ := hg
  have hiI : i ∈ I := by_contra fun hn => hi (hI i hn)
  have := congrArg (coord (K := K) a σ i) hdep
  rw [map_sum, map_zero, Finset.sum_eq_single_of_mem i hiI, map_smul,
    h.coord_self (hsub (mem_circuit.mpr ⟨hiI, hi⟩)), smul_eq_mul, mul_one] at this
  · exact hi this
  · intro k hk hki
    by_cases hk0 : g k = 0
    · rw [hk0, zero_smul, map_zero]
    · rw [map_smul, h.coord_other (hsub (mem_circuit.mpr ⟨hk, hk0⟩)) hki, smul_zero]

theorem IsSimplex.notMem_of_erase_subset (h : IsSimplex K a σ) {z : ι} (hz : g z ≠ 0)
    (hsub : (circuit I g).erase z ⊆ σ) : z ∉ σ := fun hm =>
  h.not_circuit_subset hI hdep ⟨z, hz⟩ fun i hi => by
    by_cases hiz : i = z
    · exact hiz ▸ hm
    · exact hsub (Finset.mem_erase.mpr ⟨hiz, hi⟩)

theorem IsSimplex.form_eq_smul (h : IsSimplex K a σ) {z : ι} (hz : g z ≠ 0)
    (hsub : (circuit I g).erase z ⊆ σ) : form a σ z = (g z)⁻¹ • g := by
  have hzσ := h.notMem_of_erase_subset hI hdep hz hsub
  have hzI : z ∈ I := by_contra fun hn => hz (hI z hn)
  funext i
  rw [Pi.smul_apply, smul_eq_mul]
  by_cases hiz : i = z
  · rw [hiz, h.form_self hzσ, inv_mul_cancel₀ hz]
  by_cases hi : i ∈ σ
  · have hterm : ∀ k ∈ I.erase z, coord a σ i (g k • a k) = if k = i then g k else 0 := by
      intro k hk
      by_cases hk0 : g k = 0
      · simp [hk0]
      · have hkσ := hsub (Finset.mem_erase.mpr ⟨Finset.ne_of_mem_erase hk,
          mem_circuit.mpr ⟨Finset.mem_of_mem_erase hk, hk0⟩⟩)
        simp [h.coord_vertex hkσ]
    have hsum := congrArg (coord (K := K) a σ i) hdep
    rw [map_sum, map_zero, ← Finset.add_sum_erase I _ hzI, Finset.sum_congr rfl hterm,
      Finset.sum_ite_eq', map_smul, smul_eq_mul] at hsum
    have hgi : (if i ∈ I.erase z then g i else 0) = g i := by
      split
      · rfl
      · exact (hI i fun hiI => ‹i ∉ I.erase z› (Finset.mem_erase.mpr ⟨hiz, hiI⟩)).symm
    rw [form_eq, if_neg hiz, zero_sub, eq_inv_mul_iff_mul_eq₀ hz]
    linarith
  · have hgi : g i = 0 := by_contra fun hn => hi (hsub (Finset.mem_erase.mpr
      ⟨hiz, mem_circuit.mpr ⟨by_contra fun hI' => hn (hI i hI'), hn⟩⟩))
    rw [h.form_outside hi hiz, hgi, mul_zero]

theorem IsSimplex.height_circuit (h : IsSimplex K a σ) (hσ : σ ⊆ I) {z : ι} (hz : g z ≠ 0)
    (hsub : (circuit I g).erase z ⊆ σ) (w : ι → K) :
    height a σ z w = (g z)⁻¹ * ∑ i ∈ I, g i * w i := by
  have hzI : z ∈ I := by_contra fun hn => hz (hI z hn)
  rw [h.height_eq_sum hσ hzI, h.form_eq_smul hI hdep hz hsub, Finset.mul_sum]
  exact Finset.sum_congr rfl fun i _ => by rw [Pi.smul_apply, smul_eq_mul, mul_assoc]

end Dependence

theorem union_sdiff_eq_insert {Z : Finset ι} {z z' : ι} (hz : z ∈ Z) (hz' : z' ∈ Z)
    (hne : z ≠ z') (hzσ : z ∉ σ) (hsub : Z.erase z ⊆ σ) :
    Z.erase z' ∪ (σ \ Z.erase z) = insert z (σ.erase z') := by
  ext i
  simp only [Finset.mem_union, Finset.mem_erase, Finset.mem_sdiff, Finset.mem_insert]
  have hi : i ≠ z → i ∈ Z → i ∈ σ := fun h₁ h₂ => hsub (Finset.mem_erase.mpr ⟨h₁, h₂⟩)
  by_cases h₁ : i = z
  · subst h₁; simp [hne, hz]
  · by_cases h₂ : i = z'
    · subst h₂; simp [h₁, hz']
    · simp only [h₁, h₂, ne_eq, not_false_eq_true, true_and, false_or]
      tauto

theorem sum_add_smul (g p u : ι → K) (ε : K) :
    ∑ i ∈ I, g i * (p + ε • u) i = ∑ i ∈ I, g i * p i + ε * ∑ i ∈ I, g i * u i := by
  rw [Finset.mul_sum, ← Finset.sum_add_distrib]
  exact Finset.sum_congr rfl fun i _ => by
    rw [Pi.add_apply, Pi.smul_apply, smul_eq_mul]; ring

theorem sum_mul_single (g : ι → K) {i : ι} (hi : i ∈ I) :
    ∑ k ∈ I, g k * (Pi.single i 1 : ι → K) k = g i := by
  rw [Finset.sum_eq_single_of_mem i hi fun k _ hk => by rw [Pi.single_eq_of_ne hk, mul_zero],
    Pi.single_eq_same, mul_one]

theorem sum_sq_pos (hI : ∀ i ∉ I, g i = 0) (hg : ∃ i, g i ≠ 0) : 0 < ∑ i ∈ I, g i * g i := by
  obtain ⟨i, hi⟩ := hg
  have hiI : i ∈ I := by_contra fun hn => hi (hI i hn)
  exact Finset.sum_pos' (fun k _ => mul_self_nonneg (g k)) ⟨i, hiI, mul_self_pos.mpr hi⟩

theorem eq_div_mul_of_kernel {f g : ι → K} (hsq : 0 < ∑ i ∈ I, g i * g i)
    (hker : ∀ u : ι → K, ∑ i ∈ I, g i * u i = 0 → ∑ i ∈ I, f i * u i = 0) {i : ι} (hi : i ∈ I) :
    f i = (∑ k ∈ I, f k * g k) / (∑ k ∈ I, g k * g k) * g i := by
  have h := hker (Pi.single i 1 + (-(g i / ∑ k ∈ I, g k * g k)) • g) (by
    rw [sum_add_smul, sum_mul_single g hi, neg_mul, div_mul_cancel₀ _ hsq.ne', add_neg_cancel])
  rw [sum_add_smul, sum_mul_single f hi] at h
  rw [eq_neg_of_add_eq_zero_left h]
  ring

/-- At a point of a wall each simplex of the triangulation lies below the other vectors or has the
wall as its form. -/
structure OnWall (a : ι → E) (I : Finset ι) (T : Set (Finset ι)) (g p : ι → K) : Prop where
  outside : ∀ i ∉ I, g i = 0
  ne_zero : ∃ i, g i ≠ 0
  dependence : ∑ i ∈ I, g i • a i = 0
  zero : ∑ i ∈ I, g i * p i = 0
  height : ∀ σ ∈ T, ∀ j ∈ I, j ∉ σ → 0 < height a σ j p ∨
    ∃ c : K, 0 < c ∧ form a σ j = c • g

theorem OnWall.sum_sq_pos (h : OnWall a I T g p) : 0 < ∑ i ∈ I, g i * g i :=
  Lifting.sum_sq_pos h.outside h.ne_zero

/-- A simplex with the wall as its form contains all of the circuit but one positive place. -/
theorem IsSimplex.erase_subset (hσ : IsSimplex K a σ) {j : ι} (hj : j ∉ σ) {c : K} (hc : 0 < c)
    (hform : form a σ j = c • g) : 0 < g j ∧ (circuit I g).erase j ⊆ σ := by
  have hval : ∀ i, form (K := K) a σ j i = c * g i := fun i => by
    rw [hform, Pi.smul_apply, smul_eq_mul]
  refine ⟨?_, fun i hi => by_contra fun hn => ?_⟩
  · have := hval j
    rw [hσ.form_self hj] at this
    exact pos_of_mul_pos_right (by rw [← this]; exact one_pos) hc.le
  · have := hval i
    rw [hσ.form_outside hn (Finset.ne_of_mem_erase hi)] at this
    exact (mem_circuit.mp (Finset.mem_of_mem_erase hi)).2
      ((mul_eq_zero.mp this.symm).resolve_left hc.ne')

theorem OnWall.height_circuit (h : OnWall a I T g p) (hσ : IsSimplex K a σ) (hI : σ ⊆ I) {z : ι}
    (hz : g z ≠ 0) (hsub : (circuit I g).erase z ⊆ σ) (ε : K) :
    Lifting.height a σ z (p + ε • g) = ε * ((g z)⁻¹ * ∑ i ∈ I, g i * g i) := by
  rw [hσ.height_add_smul, hσ.height_circuit h.outside h.dependence hI hz hsub,
    hσ.height_circuit h.outside h.dependence hI hz hsub, h.zero, mul_zero, zero_add]

theorem OnWall.isLower (h : OnWall a I T g p) (hT : Induces a I v T) (hσ : σ ∈ T) :
    IsLower a I p σ := by
  have hs := (hT.strict σ hσ).simplex
  refine hs.isLower (hT.strict σ hσ).subset fun j hj hjσ => ?_
  rcases h.height σ hσ j hj hjσ with hpos | ⟨c, hc, hform⟩
  · exact hpos.le
  · obtain ⟨hgj, hsub⟩ := hs.erase_subset hjσ hc hform
    have hzero := h.height_circuit hs (hT.strict σ hσ).subset hgj.ne' hsub 0
    rw [zero_smul, add_zero, zero_mul] at hzero
    exact hzero.ge

/-! ## The exchange on a circuit -/

/-- A simplex around the face of the circuit that misses the positive place `z`, and a negative place
`z'` that takes its turn to be missing. -/
structure IsExchange (a : ι → E) (I : Finset ι) (g : ι → K) (σ : Finset ι) (z z' : ι) : Prop where
  simplex : IsSimplex K a σ
  subset : σ ⊆ I
  mem : z ∈ I
  pos : 0 < g z
  erase_subset : (circuit I g).erase z ⊆ σ
  mem_out : z' ∈ I
  neg : g z' < 0

section Exchange

variable {z z' : ι} (hx : IsExchange a I g σ z z')

include hx

theorem IsExchange.ne : z ≠ z' := fun e => absurd (e ▸ hx.pos) hx.neg.not_gt

theorem IsExchange.out_mem : z' ∈ σ :=
  hx.erase_subset (Finset.mem_erase.mpr ⟨hx.ne.symm, mem_circuit.mpr ⟨hx.mem_out, hx.neg.ne⟩⟩)

theorem IsExchange.insert_subset : insert z (σ.erase z') ⊆ I :=
  Finset.insert_subset hx.mem ((Finset.erase_subset _ _).trans hx.subset)

variable (h : OnWall a I T g p)

include h

theorem IsExchange.union_eq_insert :
    (circuit I g).erase z' ∪ (σ \ (circuit I g).erase z) = insert z (σ.erase z') :=
  union_sdiff_eq_insert (mem_circuit.mpr ⟨hx.mem, hx.pos.ne'⟩)
    (mem_circuit.mpr ⟨hx.mem_out, hx.neg.ne⟩) hx.ne
    (hx.simplex.notMem_of_erase_subset h.outside h.dependence hx.pos.ne' hx.erase_subset)
    hx.erase_subset

theorem IsExchange.isSimplex : IsSimplex K a (insert z (σ.erase z')) := by
  have hform : form (K := K) a σ z z' = (g z)⁻¹ * g z' := by
    rw [hx.simplex.form_eq_smul h.outside h.dependence hx.pos.ne' hx.erase_subset, Pi.smul_apply,
      smul_eq_mul]
  refine hx.simplex.exchange hx.out_mem fun hzero => ?_
  rw [form_eq, if_neg hx.ne.symm, hzero, sub_zero, eq_comm, mul_eq_zero] at hform
  exact hform.elim (inv_ne_zero hx.pos.ne') hx.neg.ne

theorem IsExchange.plane_eq : plane a (insert z (σ.erase z')) p = plane a σ p := by
  refine ((hx.isSimplex h).eq_plane fun i hi => ?_).symm
  rcases Finset.mem_insert.mp hi with rfl | hi
  · have hzero := h.height_circuit hx.simplex hx.subset hx.pos.ne' hx.erase_subset 0
    rw [zero_smul, add_zero, zero_mul, Lifting.height] at hzero
    linarith
  · exact hx.simplex.plane_vertex (Finset.mem_of_mem_erase hi)

theorem IsExchange.height_out_pos {ε : K} (hε : 0 < ε) :
    0 < Lifting.height a (insert z (σ.erase z')) z' (p + (-ε) • g) := by
  have hsub : (circuit I g).erase z' ⊆ insert z (σ.erase z') := by
    rw [← hx.union_eq_insert h]
    exact Finset.subset_union_left
  rw [h.height_circuit (hx.isSimplex h) hx.insert_subset hx.neg.ne hsub, ← neg_mul_eq_neg_mul,
    ← mul_neg]
  refine mul_pos hε ?_
  rw [Left.neg_pos_iff]
  exact mul_neg_of_neg_of_pos (inv_lt_zero.mpr hx.neg) h.sum_sq_pos

/-- On the wall all other vectors are above the other simplex. -/
theorem IsExchange.height_pos (hσ : σ ∈ T) {j : ι} (hj : j ∈ I)
    (hjτ : j ∉ insert z (σ.erase z')) (hjz' : j ≠ z') :
    0 < Lifting.height a (insert z (σ.erase z')) j p := by
  have hjσ : j ∉ σ := fun hm => hjτ (Finset.mem_insert_of_mem (Finset.mem_erase.mpr ⟨hjz', hm⟩))
  have hjz : j ≠ z := fun e => hjτ (e ▸ Finset.mem_insert_self _ _)
  rw [Lifting.height, hx.plane_eq h, ← Lifting.height]
  rcases h.height σ hσ j hj hjσ with hp | ⟨c, hc, hform⟩
  · exact hp
  · obtain ⟨hgj, -⟩ := hx.simplex.erase_subset (I := I) hjσ hc hform
    exact absurd (hx.erase_subset (Finset.mem_erase.mpr
      ⟨hjz, mem_circuit.mpr ⟨hj, hgj.ne'⟩⟩)) hjσ

end Exchange

theorem OnWall.isStrict_of_flipped (h : OnWall a I T g p) (hT : Induces a I v T) {ε : K}
    (hε : 0 < ε) (hpos : ∀ τ, IsSimplex K a τ → τ ⊆ I → ∀ j ∈ I, 0 < Lifting.height a τ j p →
      0 < Lifting.height a τ j (p + (-ε) • g))
    (hτ : τ ∈ flipped I T g) : IsStrict a I (p + (-ε) • g) τ := by
  rcases hτ with ⟨hτ, hkeep⟩ | ⟨σ, hσ, z, hz, hgz, hsub, z', hz', hgz', rfl⟩
  · have hs := hT.strict τ hτ
    refine hs.simplex.isStrict hs.subset fun j hj hjτ => ?_
    rcases h.height τ hτ j hj hjτ with hp | ⟨c, hc, hform⟩
    · exact hpos τ hs.simplex hs.subset j hj hp
    · obtain ⟨hgj, hsub⟩ := hs.simplex.erase_subset hjτ hc hform
      exact absurd hsub (hkeep j hj hgj)
  · have hx : IsExchange a I g σ z z' :=
      ⟨(hT.strict σ hσ).simplex, (hT.strict σ hσ).subset, hz, hgz, hsub, hz', hgz'⟩
    rw [hx.union_eq_insert h]
    refine (hx.isSimplex h).isStrict hx.insert_subset fun j hj hjτ => ?_
    by_cases hjz' : j = z'
    · exact hjz' ▸ hx.height_out_pos h hε
    · exact hpos _ (hx.isSimplex h) hx.insert_subset j hj (hx.height_pos h hσ hj hjτ hjz')

section Behind

variable (h : OnWall a I T g p)

include h

theorem OnWall.neg_of_erase_subset {ε : K} (hε : 0 < ε) (hτ : IsLower a I (p + (-ε) • g) τ) {z : ι}
    (hz : g z ≠ 0) (hsub : (circuit I g).erase z ⊆ τ) : g z < 0 := by
  by_contra hge
  have hgz := lt_of_le_of_ne (not_lt.mp hge) hz.symm
  have hzI : z ∈ I := by_contra fun hn => hz (h.outside z hn)
  have hnonneg := hτ.height_nonneg z hzI
  rw [h.height_circuit hτ.simplex hτ.subset hz hsub] at hnonneg
  have hpos := mul_pos (inv_pos.mpr hgz) h.sum_sq_pos
  nlinarith

theorem OnWall.erase_subset_of_notMem (hT : Induces a I v T) (hσ : σ ∈ T) (hτ : IsLower a I p τ)
    (hcone : InCone K a σ (∑ k ∈ τ, a k)) {i : ι} (hi : i ∈ τ) (hiσ : i ∉ σ) :
    0 < g i ∧ (circuit I g).erase i ⊆ σ := by
  have hσp := h.isLower hT hσ
  have hone : ∀ k ∈ τ, coord (K := K) a τ k (∑ k ∈ τ, a k) = 1 := fun k hk =>
    hτ.simplex.coord_sum hk
  have hin : InCone K a τ (∑ k ∈ τ, a k) := fun k hk => by rw [hone k hk]; exact zero_le_one
  have hvertex := hτ.simplex.apply_vertex_of_eq hin (fun k hk => hσp.plane_le (hτ.subset hk))
    (hτ.plane_eq hσp hin hcone).ge hi (by rw [hone i hi]; exact one_pos)
  rcases h.height σ hσ i (hτ.subset hi) hiσ with hp | ⟨c, hc, hform⟩
  · rw [Lifting.height, hvertex, sub_self] at hp
    exact absurd hp (lt_irrefl 0)
  · exact hσp.simplex.erase_subset hiσ hc hform

theorem OnWall.exists_eq_insert (hσ : IsSimplex K a σ) (hτ : IsSimplex K a τ) (hτI : τ ⊆ I)
    (hwall : ∀ i ∈ τ, i ∉ σ → 0 < g i ∧ (circuit I g).erase i ⊆ σ) {z : ι} (hzτ : z ∈ τ)
    (hzσ : z ∉ σ) : ∃ z' ∈ σ, g z' ≠ 0 ∧ insert z (σ.erase z') = τ := by
  have hzsub := (hwall z hzτ hzσ).2
  have hrest : τ.erase z ⊆ σ := fun i hi => by_contra fun hiσ => by
    obtain ⟨hgi, -⟩ := hwall i (Finset.mem_of_mem_erase hi) hiσ
    exact hiσ (hzsub (Finset.mem_erase.mpr ⟨Finset.ne_of_mem_erase hi,
      mem_circuit.mpr ⟨hτI (Finset.mem_of_mem_erase hi), hgi.ne'⟩⟩))
  obtain ⟨z', hz', rfl⟩ := hτ.eq_insert hσ hzτ hrest
  have heq : insert z ((insert z' (τ.erase z)).erase z') = τ := by
    rw [Finset.erase_insert hz', Finset.insert_erase hzτ]
  refine ⟨z', Finset.mem_insert_self _ _, fun hzero => ?_, heq⟩
  -- A circuit within both simplices is in `τ`.
  refine hτ.not_circuit_subset h.outside h.dependence h.ne_zero fun i hi => ?_
  rw [← heq]
  by_cases hiz : i = z
  · exact hiz ▸ Finset.mem_insert_self _ _
  · exact Finset.mem_insert_of_mem (Finset.mem_erase.mpr
      ⟨fun e => (mem_circuit.mp hi).2 (e ▸ hzero), hzsub (Finset.mem_erase.mpr ⟨hiz, hi⟩)⟩)

end Behind

theorem OnWall.mem_flipped (h : OnWall a I T g p) (hT : Induces a I v T)
    (hspan : Submodule.span K (a '' I) = ⊤) {φ : E →ₗ[K] K} (hφ : ∀ i ∈ I, 0 < φ (a i)) {ε : K}
    (hε : 0 < ε) (hneg : ∀ j ∈ I, Lifting.height a τ j p < 0 →
      Lifting.height a τ j (p + (-ε) • g) < 0)
    (hτ : IsLower a I (p + (-ε) • g) τ) : τ ∈ flipped I T g := by
  have hτp : IsLower a I p τ := ⟨hτ.simplex, hτ.subset, fun j hj => not_lt.mp fun hlt =>
    absurd (hτ.height_nonneg j hj) (not_le.mpr (hneg j hj hlt))⟩
  obtain ⟨σ, hσ, hcone⟩ := hT.exists_mem hspan hφ (inHull_sum hτ.subset)
  have hs := hT.strict σ hσ
  have hwall : ∀ i ∈ τ, i ∉ σ → 0 < g i ∧ (circuit I g).erase i ⊆ σ := fun i hi hiσ =>
    h.erase_subset_of_notMem hT hσ hτp hcone hi hiσ
  by_cases hsub : τ ⊆ σ
  · obtain rfl := hτ.simplex.eq_of_subset hs.simplex hsub
    exact .inl ⟨hσ, fun z _ hgz hz =>
      absurd (h.neg_of_erase_subset hε hτ hgz.ne' hz) hgz.not_gt⟩
  obtain ⟨z, hzτ, hzσ⟩ := Finset.not_subset.mp hsub
  obtain ⟨hgz, hzsub⟩ := hwall z hzτ hzσ
  obtain ⟨z', hz'σ, hgz', heq⟩ :=
    h.exists_eq_insert hs.simplex hτ.simplex hτ.subset hwall hzτ hzσ
  have hunion := union_sdiff_eq_insert (mem_circuit.mpr ⟨hτ.subset hzτ, hgz.ne'⟩)
    (mem_circuit.mpr ⟨hs.subset hz'σ, hgz'⟩) (fun e => hzσ (e ▸ hz'σ)) hzσ hzsub
  rw [heq] at hunion
  have hneg' : g z' < 0 := h.neg_of_erase_subset hε hτ hgz' (by
    rw [← hunion]
    exact Finset.subset_union_left)
  exact .inr ⟨σ, hσ, z, hτ.subset hzτ, hgz, hzsub, z', hs.subset hz'σ, hneg', hunion.symm⟩

variable [TopologicalSpace K] [OrderTopology K]

theorem eventually_height_pos (a : ι → E) (I : Finset ι) (p u : ι → K) :
    ∀ᶠ ε in 𝓝[>] (0 : K), ∀ τ ∈ I.powerset, ∀ j ∈ I, IsSimplex K a τ → 0 < height a τ j p →
      0 < height a τ j (p + ε • u) := by
  simp only [eventually_all_finset]
  intro τ _ j _
  by_cases hτ : IsSimplex K a τ ∧ 0 < height a τ j p
  · exact (eventually_add_mul_pos hτ.2 (height a τ j u)).mono fun ε hε h _ => by
      rwa [h.height_add_smul]
  · exact .of_forall fun ε h₁ h₂ => absurd ⟨h₁, h₂⟩ hτ

theorem eventually_height_neg (a : ι → E) (I : Finset ι) (p u : ι → K) :
    ∀ᶠ ε in 𝓝[>] (0 : K), ∀ τ ∈ I.powerset, ∀ j ∈ I, IsSimplex K a τ → height a τ j p < 0 →
      height a τ j (p + ε • u) < 0 := by
  have hneg : ∀ τ j (w : ι → K), IsSimplex K a τ → height a τ j (-w) = -height a τ j w := by
    intro τ j w h
    have := h.height_add_smul j 0 w (-1)
    have h0 := h.height_add_smul j 0 (0 : ι → K) 1
    simp only [neg_smul, one_smul, zero_add, one_mul, smul_zero] at this h0
    linarith
  refine (eventually_height_pos a I (-p) (-u)).mono fun ε h τ hτ j hj hs hlt => ?_
  have := h τ hτ j hj hs (by rw [hneg τ j p hs]; linarith)
  rw [smul_neg, ← neg_add, hneg τ j _ hs] at this
  linarith

theorem OnWall.eventually_induces (h : OnWall a I T g p) (hT : Induces a I v T)
    (hspan : Submodule.span K (a '' I) = ⊤) {φ : E →ₗ[K] K} (hφ : ∀ i ∈ I, 0 < φ (a i)) :
    ∀ᶠ ε in 𝓝[>] (0 : K), Induces a I (p + (-ε) • g) (flipped I T g) := by
  filter_upwards [eventually_height_pos a I p (-g), eventually_height_neg a I p (-g),
    eventually_pos] with ε hpos hneg hε
  have hmove : p + (-ε) • g = p + ε • (-g) := by rw [neg_smul, smul_neg]
  refine ⟨fun τ hτ => h.mem_flipped hT hspan hφ hε (fun j hj hlt => ?_) hτ,
    fun τ hτ => h.isStrict_of_flipped hT hε (fun τ hs hI j hj hlt => ?_) hτ⟩
  · rw [hmove]
    exact hneg τ (Finset.mem_powerset.mpr hτ.subset) j hj hτ.simplex hlt
  · rw [hmove]
    exact hpos τ (Finset.mem_powerset.mpr hI) j hj hs hlt

section Facet

variable (hI : ∀ i ∉ I, g i = 0) (hg : ∃ i, g i ≠ 0)

include hI hg

theorem Induces.onWall (hT : Induces a I v T) (hdep : ∑ i ∈ I, g i • a i = 0)
    (hzero : ∑ i ∈ I, g i * p i = 0)
    (hnear : ∀ u : ι → K, 0 < ∑ i ∈ I, g i * u i →
      ∀ᶠ ε in 𝓝[>] (0 : K), Induces a I (p + ε • u) T) : OnWall a I T g p := by
  refine ⟨hI, hg, hdep, hzero, fun σ hσ j hj hjσ => ?_⟩
  have hs := (hT.strict σ hσ).simplex
  have hsq := sum_sq_pos hI hg
  have hup : ∀ u : ι → K, 0 < ∑ i ∈ I, g i * u i →
      ∀ᶠ ε in 𝓝[>] (0 : K), 0 < height a σ j p + ε * height a σ j u := fun u hu =>
    (hnear u hu).mono fun ε hε => by
      rw [← hs.height_add_smul]
      exact (hε.strict σ hσ).height_pos j hj hjσ
  refine or_iff_not_imp_left.mpr fun hnpos => ?_
  have hp0 : height a σ j p = 0 := le_antisymm (not_lt.mp hnpos)
    (nonneg_of_frequently ((hup g hsq).mono fun _ => le_of_lt).frequently)
  have hpos : ∀ u : ι → K, 0 < ∑ i ∈ I, g i * u i → 0 < height a σ j u := fun u hu => by
    obtain ⟨ε, hε, hε0⟩ := ((hup u hu).and eventually_pos).exists
    rw [hp0, zero_add] at hε
    exact pos_of_mul_pos_right hε hε0.le
  have hker : ∀ u : ι → K, ∑ i ∈ I, g i * u i = 0 → ∑ i ∈ I, form a σ j i * u i = 0 := by
    intro u hu
    rw [← hs.height_eq_sum (hT.strict σ hσ).subset hj]
    by_contra hne
    have := hpos (g + (-(height a σ j g) / height a σ j u) • u) (by
      rw [sum_add_smul, hu, mul_zero, add_zero]
      exact hsq)
    rw [hs.height_add_smul, div_mul_cancel₀ _ hne, add_neg_cancel] at this
    exact lt_irrefl _ this
  refine ⟨height a σ j g / ∑ i ∈ I, g i * g i, div_pos (hpos g hsq) hsq, funext fun i => ?_⟩
  rw [Pi.smul_apply, smul_eq_mul]
  by_cases hiI : i ∈ I
  · rw [hs.height_eq_sum (hT.strict σ hσ).subset hj]
    exact eq_div_mul_of_kernel hsq hker hiI
  · have hiσ : i ∉ σ := fun hm => hiI ((hT.strict σ hσ).subset hm)
    rw [hs.form_outside hiσ (fun e => hiI (e ▸ hj)), hI i hiI, mul_zero]

end Facet

end Orthant.Lifting
