import Orthant.Proofs.Lifting.Generic

/-! # Paths through walls

The heights of a triangulation are cut out by forms. On the way between generic heights, chosen so
that two different walls are never met at once, each wall that is crossed bounds the heights of the
triangulation before it. A set of triangulations that is closed under flips on bounding walls holds
all triangulations or none.
-/

set_option linter.unusedSectionVars false

open Filter Topology

namespace Orthant.Lifting

variable {K E ι : Type*} [Field K] [LinearOrder K] [IsStrictOrderedRing K]
  [AddCommGroup E] [Module K E] [FiniteDimensional K E] [DecidableEq ι]

/-- Forms that cut out the heights which induce a triangulation, one for each wall. -/
structure CutsOut (a : ι → E) (I : Finset ι) (T : Set (Finset ι)) (G : Finset (ι → K)) : Prop where
  fold : ∀ g ∈ G, ∃ φ ∈ folds K a I, ∃ c : K, 0 < c ∧ g = c • form a φ.1 φ.2
  ray : ∀ g ∈ G, ∀ g' ∈ G, ∀ c : K, 0 < c → g' = c • g → g' = g
  induces_iff : ∀ w, Induces a I w T ↔ ∀ g ∈ G, 0 < ∑ i ∈ I, g i * w i

/-- A point where one form vanishes and all others are positive. -/
structure Bounds (I : Finset ι) (G : Finset (ι → K)) (g p : ι → K) : Prop where
  mem : g ∈ G
  zero : ∑ i ∈ I, g i * p i = 0
  pos : ∀ g' ∈ G, g' ≠ g → 0 < ∑ i ∈ I, g' i * p i

/-- Two forms vanish at one point of the segment only if they are multiples of each other. -/
def CrossesApart (a : ι → E) (I : Finset ι) (v w : ι → K) : Prop :=
  ∀ φ ∈ folds K a I, ∀ ψ ∈ folds K a I, ∀ s : K, 0 ≤ s → s ≤ 1 →
    height a φ.1 φ.2 (v + s • (w - v)) = 0 → height a ψ.1 ψ.2 (v + s • (w - v)) = 0 →
    ∃ c : K, form (K := K) a ψ.1 ψ.2 = c • form a φ.1 φ.2

variable {a : ι → E} {I σ τ : Finset ι} {w v p u : ι → K} {T T' : Set (Finset ι)} {g : ι → K}
  {G : Finset (ι → K)}

theorem height_eq_sum_of_mem {φ : Finset ι × ι} (hφ : φ ∈ folds K a I) (w : ι → K) :
    height a φ.1 φ.2 w = ∑ i ∈ I, form a φ.1 φ.2 i * w i :=
  (mem_folds.mp hφ).2.2.1.height_eq_sum (mem_folds.mp hφ).1 (mem_folds.mp hφ).2.1 w

theorem sum_smul_form {φ : Finset ι × ι} (hφ : φ ∈ folds K a I) (c : K) (w : ι → K) :
    ∑ i ∈ I, (c • form a φ.1 φ.2) i * w i = c * height a φ.1 φ.2 w := by
  rw [height_eq_sum_of_mem hφ, Finset.mul_sum]
  exact Finset.sum_congr rfl fun i _ => by rw [Pi.smul_apply, smul_eq_mul, mul_assoc]

theorem height_of_form_eq {φ ψ : Finset ι × ι} (hφ : φ ∈ folds K a I) (hψ : ψ ∈ folds K a I)
    {c : K} (h : form (K := K) a ψ.1 ψ.2 = c • form a φ.1 φ.2) (w : ι → K) :
    height a ψ.1 ψ.2 w = c * height a φ.1 φ.2 w := by
  rw [← sum_smul_form hφ, ← h, ← height_eq_sum_of_mem hψ]

theorem height_segment {φ : Finset ι × ι} (hφ : φ ∈ folds K a I) (v w : ι → K) (s : K) :
    height a φ.1 φ.2 (v + s • (w - v)) =
      height a φ.1 φ.2 v + s * (height a φ.1 φ.2 w - height a φ.1 φ.2 v) :=
  (mem_folds.mp hφ).2.2.1.height_segment φ.2 v w s

theorem form_ne_zero {φ : Finset ι × ι} (hφ : φ ∈ folds K a I) : form (K := K) a φ.1 φ.2 ≠ 0 := by
  intro h
  obtain ⟨-, -, hsim, hjφ⟩ := mem_folds.mp hφ
  have hself := hsim.form_self hjφ
  rw [h, Pi.zero_apply] at hself
  exact zero_ne_one hself

theorem height_form_pos {φ : Finset ι × ι} (hφ : φ ∈ folds K a I) {c : K} (hc : 0 < c) :
    0 < height a φ.1 φ.2 (c • form (K := K) a φ.1 φ.2) := by
  obtain ⟨hI, hj, hsim, hjφ⟩ := mem_folds.mp hφ
  have hsq : 0 < ∑ i ∈ I, form (K := K) a φ.1 φ.2 i * form a φ.1 φ.2 i :=
    sum_sq_pos (fun i hi => hsim.form_outside (fun hm => hi (hI hm)) fun he => hi (he ▸ hj))
      ⟨φ.2, by rw [hsim.form_self hjφ]; exact one_ne_zero⟩
  rw [height_eq_sum_of_mem hφ]
  simp only [Pi.smul_apply, smul_eq_mul, mul_left_comm _ c, ← Finset.mul_sum]
  exact mul_pos hc hsq

theorem height_mul_pos_of_form_eq {φ ψ : Finset ι × ι} (hφ : φ ∈ folds K a I)
    (hψ : ψ ∈ folds K a I) {k : K} (hk : form (K := K) a ψ.1 ψ.2 = k • form a φ.1 φ.2)
    {x y : ι → K} (hxy : 0 < height a φ.1 φ.2 x * height a φ.1 φ.2 y) :
    0 < height a ψ.1 ψ.2 x * height a ψ.1 ψ.2 y := by
  have hk0 : k ≠ 0 := by
    rintro rfl
    exact form_ne_zero hψ (by rw [hk, zero_smul])
  rw [height_of_form_eq hφ hψ hk, height_of_form_eq hφ hψ hk, mul_mul_mul_comm]
  exact mul_pos (mul_self_pos.mpr hk0) hxy

section CutsOut

variable (hG : CutsOut a I T G) (hg : g ∈ G)

include hG hg

theorem CutsOut.eq_zero_of_notMem {i : ι} (hi : i ∉ I) : g i = 0 := by
  obtain ⟨φ, hφ, c, -, rfl⟩ := hG.fold g hg
  obtain ⟨hI, hj, hsim, -⟩ := mem_folds.mp hφ
  rw [Pi.smul_apply, hsim.form_outside (fun hm => hi (hI hm)) (fun e => hi (e ▸ hj)), smul_zero]

theorem CutsOut.ne_zero : ∃ i, g i ≠ 0 := by
  obtain ⟨φ, hφ, c, hc, rfl⟩ := hG.fold g hg
  obtain ⟨-, -, hsim, hjφ⟩ := mem_folds.mp hφ
  refine ⟨φ.2, ?_⟩
  rw [Pi.smul_apply, hsim.form_self hjφ, smul_eq_mul, mul_one]
  exact hc.ne'

theorem CutsOut.dependence : ∑ i ∈ I, g i • a i = 0 := by
  obtain ⟨φ, hφ, c, -, rfl⟩ := hG.fold g hg
  obtain ⟨hI, hj, hsim, -⟩ := mem_folds.mp hφ
  simp only [Pi.smul_apply, smul_assoc]
  rw [← Finset.smul_sum, hsim.sum_form hI hj, smul_zero]

theorem CutsOut.sum_sq_pos : 0 < ∑ i ∈ I, g i * g i :=
  Lifting.sum_sq_pos (fun _ => hG.eq_zero_of_notMem hg) (hG.ne_zero hg)

end CutsOut

/-- Heights that are on no other side of a plane than those of a triangulation induce it too, or some
wall of it is met. -/
theorem CutsOut.exists_met (hG : CutsOut a I T G) (hv : Induces a I v T)
    (hside : ∀ φ ∈ folds K a I, 0 ≤ height a φ.1 φ.2 v * height a φ.1 φ.2 u)
    (hnot : ¬ Induces a I u T) : ∃ φ ∈ folds K a I, ∃ c : K, 0 < c ∧ c • form a φ.1 φ.2 ∈ G ∧
      0 < height a φ.1 φ.2 v ∧ height a φ.1 φ.2 u = 0 := by
  rw [hG.induces_iff] at hnot
  push Not at hnot
  obtain ⟨g, hg, hle⟩ := hnot
  obtain ⟨φ, hφ, c, hc, rfl⟩ := hG.fold g hg
  have hpos := (hG.induces_iff v).mp hv _ hg
  rw [sum_smul_form hφ] at hpos hle
  have hφv : 0 < height a φ.1 φ.2 v := pos_of_mul_pos_right hpos hc.le
  exact ⟨φ, hφ, c, hc, hg, hφv, le_antisymm (nonpos_of_mul_nonpos_right hle hc)
    (nonneg_of_mul_nonneg_right (hside φ hφ) hφv)⟩

theorem IsGeneric.exists_first_wall (hv : IsGeneric a I v) (hw : IsGeneric a I w)
    (hch : ∃ φ ∈ folds K a I, height a φ.1 φ.2 v * height a φ.1 φ.2 w < 0) :
    ∃ s : K, 0 < s ∧ s < 1 ∧
      (∀ φ ∈ folds K a I, 0 ≤ height a φ.1 φ.2 v * height a φ.1 φ.2 (v + s • (w - v))) ∧
      ∃ φ ∈ folds K a I, height a φ.1 φ.2 (v + s • (w - v)) = 0 := by
  obtain ⟨s, hs0, hs1, hnn, φ, hφ, hz⟩ := exists_first_zero (folds K a I)
    (α := fun φ => height a φ.1 φ.2 v * height a φ.1 φ.2 v)
    (β := fun φ => height a φ.1 φ.2 v * height a φ.1 φ.2 w)
    (fun φ hφ => mul_self_pos.mpr (hv φ hφ)) (by
      obtain ⟨φ, hφ, hlt⟩ := hch
      exact ⟨φ, hφ, hlt.le⟩)
  have hval : ∀ φ ∈ folds K a I, height a φ.1 φ.2 v * height a φ.1 φ.2 (v + s • (w - v)) =
      height a φ.1 φ.2 v * height a φ.1 φ.2 v + s * (height a φ.1 φ.2 v * height a φ.1 φ.2 w -
        height a φ.1 φ.2 v * height a φ.1 φ.2 v) := fun φ hφ => by
    rw [height_segment hφ]; ring
  have hzero : height a φ.1 φ.2 (v + s • (w - v)) = 0 :=
    (mul_eq_zero.mp ((hval φ hφ).trans hz)).resolve_left (hv φ hφ)
  refine ⟨s, hs0, lt_of_le_of_ne hs1 fun h1 => ?_, fun φ hφ => by rw [hval φ hφ]; exact hnn φ hφ,
    φ, hφ, hzero⟩
  rw [h1, one_smul, add_sub_cancel] at hzero
  exact hw φ hφ hzero

variable [TopologicalSpace K] [OrderTopology K]

/-- Just behind a point of the segment the vectors are on the sides where they are at the point, or
at the end where they are on the plane. -/
theorem IsGeneric.eventually_behind (hv : IsGeneric a I v) {s : K} (hs1 : s < 1) :
    ∀ᶠ δ in 𝓝[>] (0 : K), ∀ φ ∈ folds K a I,
      (height a φ.1 φ.2 (v + s • (w - v)) ≠ 0 → 0 < height a φ.1 φ.2 (v + s • (w - v)) *
        height a φ.1 φ.2 (v + s • (w - v) + δ • (w - v))) ∧
      (height a φ.1 φ.2 (v + s • (w - v)) = 0 → 0 < height a φ.1 φ.2 w *
        height a φ.1 φ.2 (v + s • (w - v) + δ • (w - v))) := by
  filter_upwards [eventually_height_pos a I (v + s • (w - v)) (w - v),
    eventually_height_neg a I (v + s • (w - v)) (w - v), eventually_pos] with δ hpos hneg hδ
  intro φ hφ
  obtain ⟨hI, hj, hsim, -⟩ := mem_folds.mp hφ
  refine ⟨fun hne => ?_, fun hzero => ?_⟩
  · rcases lt_or_gt_of_ne hne with hlt | hgt
    · exact mul_pos_of_neg_of_neg hlt (hneg φ.1 (Finset.mem_powerset.mpr hI) φ.2 hj hsim hlt)
    · exact mul_pos hgt (hpos φ.1 (Finset.mem_powerset.mpr hI) φ.2 hj hsim hgt)
  · rw [height_add_smul_of_mem hφ, hzero, zero_add, hsim.height_sub]
    rw [height_segment hφ] at hzero
    set x := height a φ.1 φ.2 w - height a φ.1 φ.2 v with hx
    have hx0 : x ≠ 0 := fun h0 => by
      rw [h0, mul_zero, add_zero] at hzero
      exact hv φ hφ hzero
    have hw : height a φ.1 φ.2 w = (1 - s) * x := by linarith
    rw [hw, show (1 - s) * x * (δ * x) = (1 - s) * δ * (x * x) by ring]
    exact mul_pos (mul_pos (sub_pos.mpr hs1) hδ) (mul_self_pos.mpr hx0)

/-- In all directions that raise a bounding form the triangulation is induced next to the point. -/
theorem CutsOut.eventually_induces (hG : CutsOut a I T G) (hb : Bounds I G g p)
    (hu : 0 < ∑ i ∈ I, g i * u i) : ∀ᶠ ε in 𝓝[>] (0 : K), Induces a I (p + ε • u) T := by
  have hall : ∀ g' ∈ G, ∀ᶠ ε in 𝓝[>] (0 : K), 0 < ∑ i ∈ I, g' i * (p + ε • u) i := by
    intro g' hg'
    simp only [sum_add_smul]
    by_cases he : g' = g
    · subst he
      filter_upwards [eventually_pos] with ε hε
      rw [hb.zero, zero_add]
      exact mul_pos hε hu
    · exact eventually_add_mul_pos (hb.pos g' hg' he) _
  exact ((eventually_all_finset _).mpr hall).mono fun ε hε => (hG.induces_iff _).mpr hε

/-- Behind a bounding wall the heights induce the flip on it. -/
theorem CutsOut.eventually_induces_flipped (hG : CutsOut a I T G) (hv : Induces a I v T)
    (hspan : Submodule.span K (a '' I) = ⊤) {ℓ : E →ₗ[K] K} (hℓ : ∀ i ∈ I, 0 < ℓ (a i))
    (hb : Bounds I G g p) :
    ∀ᶠ ε in 𝓝[>] (0 : K), Induces a I (p + (-ε) • g) (flipped I T g) :=
  OnWall.eventually_induces (hv.onWall (fun _ => hG.eq_zero_of_notMem hb.mem) (hG.ne_zero hb.mem)
    (hG.dependence hb.mem) hb.zero fun _ => hG.eventually_induces hb) hv hspan hℓ

/-- A form that vanishes at a point of the segment before which the triangulation is induced bounds
its heights there. -/
theorem CutsOut.bounds (hG : CutsOut a I T G) (hv : Induces a I v T) (hapart : CrossesApart a I v w)
    {s : K} (hs0 : 0 < s) (hs1 : s < 1)
    (hside : ∀ φ ∈ folds K a I, 0 ≤ height a φ.1 φ.2 v * height a φ.1 φ.2 (v + s • (w - v)))
    (hg : g ∈ G) (hzero : ∑ i ∈ I, g i * (v + s • (w - v)) i = 0) :
    Bounds I G g (v + s • (w - v)) := by
  refine ⟨hg, hzero, fun g' hg' hne => ?_⟩
  obtain ⟨φ, hφ, c, hc, rfl⟩ := hG.fold g hg
  obtain ⟨ψ, hψ, d, hd, rfl⟩ := hG.fold g' hg'
  have hφv := (hG.induces_iff v).mp hv _ hg
  have hψv := (hG.induces_iff v).mp hv _ hg'
  rw [sum_smul_form hφ] at hφv hzero
  rw [sum_smul_form hψ] at hψv ⊢
  have hφ0 := (mul_eq_zero.mp hzero).resolve_left hc.ne'
  have hφv' := pos_of_mul_pos_right hφv hc.le
  have hψv' := pos_of_mul_pos_right hψv hd.le
  have hnn : 0 ≤ height a ψ.1 ψ.2 (v + s • (w - v)) :=
    nonneg_of_mul_nonneg_right (hside ψ hψ) hψv'
  refine mul_pos hd (lt_of_le_of_ne hnn fun h0 => hne ?_)
  obtain ⟨k, hk⟩ := hapart φ hφ ψ hψ s hs0.le hs1.le hφ0 h0.symm
  have hkpos : 0 < k := by
    rw [height_of_form_eq hφ hψ hk] at hψv'
    exact pos_of_mul_pos_left hψv' hφv'.le
  refine hG.ray _ hg _ hg' (d * k / c) (by positivity) ?_
  rw [hk, smul_smul, smul_smul, div_mul_cancel₀ _ hc.ne']

/-- The planes that some vector changes sides of between two height vectors. -/
noncomputable def changes (a : ι → E) (I : Finset ι) (v w : ι → K) : Finset (Finset ι × ι) :=
  (folds K a I).filter fun φ => height a φ.1 φ.2 v * height a φ.1 φ.2 w < 0

/-- Behind the first wall fewer planes are left to be crossed. -/
theorem changes_ssubset (hgv : IsGeneric a I v) {s δ : K} (hs0 : 0 < s) (hs1 : s < 1)
    (hside : ∀ φ ∈ folds K a I, 0 ≤ height a φ.1 φ.2 v * height a φ.1 φ.2 (v + s • (w - v)))
    (hbehind : ∀ φ ∈ folds K a I,
      (height a φ.1 φ.2 (v + s • (w - v)) ≠ 0 → 0 < height a φ.1 φ.2 (v + s • (w - v)) *
        height a φ.1 φ.2 (v + s • (w - v) + δ • (w - v))) ∧
      (height a φ.1 φ.2 (v + s • (w - v)) = 0 → 0 < height a φ.1 φ.2 w *
        height a φ.1 φ.2 (v + s • (w - v) + δ • (w - v))))
    {φ : Finset ι × ι} (hφ : φ ∈ folds K a I)
    (hφ0 : height a φ.1 φ.2 (v + s • (w - v)) = 0) :
    changes a I (v + s • (w - v) + δ • (w - v)) w ⊂ changes a I v w := by
  refine Finset.ssubset_iff_of_subset (fun ψ hψ => ?_) |>.mpr ⟨φ, ?_, fun hm => ?_⟩
  · obtain ⟨hψ, hlt⟩ := Finset.mem_filter.mp hψ
    refine Finset.mem_filter.mpr ⟨hψ, ?_⟩
    have hψ0 : height a ψ.1 ψ.2 (v + s • (w - v)) ≠ 0 := fun h0 => by
      have := (hbehind ψ hψ).2 h0
      rw [mul_comm] at this
      exact absurd this hlt.not_gt
    have h₁ := (hbehind ψ hψ).1 hψ0
    have h₂ := lt_of_le_of_ne (hside ψ hψ) (mul_ne_zero (hgv ψ hψ) hψ0).symm
    rcases lt_or_gt_of_ne hψ0 with hneg | hpos
    · exact mul_neg_of_neg_of_pos (by nlinarith) (by nlinarith)
    · exact mul_neg_of_pos_of_neg (by nlinarith) (by nlinarith)
  · refine Finset.mem_filter.mpr ⟨hφ, ?_⟩
    rw [height_segment hφ] at hφ0
    have hsq := mul_self_pos.mpr (hgv φ hφ)
    have hs : s * (height a φ.1 φ.2 v * height a φ.1 φ.2 w) =
        -((1 - s) * (height a φ.1 φ.2 v * height a φ.1 φ.2 v)) := by
      have := congrArg (height a φ.1 φ.2 v * ·) hφ0
      simp only [mul_zero] at this
      linarith
    have := mul_pos (sub_pos.mpr hs1) hsq
    exact neg_of_mul_neg_right (by linarith) hs0.le
  · have := (hbehind φ hφ).2 hφ0
    rw [mul_comm] at this
    exact absurd this (Finset.mem_filter.mp hm).2.not_gt

theorem CrossesApart.tail (h : CrossesApart a I v w) {s : K} (hs0 : 0 ≤ s) (hs1 : s ≤ 1) :
    CrossesApart a I (v + s • (w - v)) w := by
  intro φ hφ ψ hψ r hr0 hr1 h₁ h₂
  have hpoint : v + s • (w - v) + r • (w - (v + s • (w - v))) =
      v + (s + r * (1 - s)) • (w - v) := by
    module
  rw [hpoint] at h₁ h₂
  refine h φ hφ ψ hψ _ ?_ ?_ h₁ h₂ <;> nlinarith

/-- A form on the starts of ways to `w`. It vanishes at those from which two planes are met at
once. -/
noncomputable def pairForm (a : ι → E) (I : Finset ι) (w : ι → K) (φ ψ : Finset ι × ι) :
    (ι → K) →ₗ[K] K where
  toFun v := height a ψ.1 ψ.2 w * heightMap a I φ v - height a φ.1 φ.2 w * heightMap a I ψ v
  map_add' v v' := by
    simp only [map_add]
    ring
  map_smul' t v := by
    simp only [map_smul, smul_eq_mul, RingHom.id_apply]
    ring

section PairForm

variable {φ ψ : Finset ι × ι} (hφ : φ ∈ folds K a I) (hψ : ψ ∈ folds K a I)

include hφ hψ

theorem pairForm_apply (v : ι → K) : pairForm a I w φ ψ v =
    height a ψ.1 ψ.2 w * height a φ.1 φ.2 v - height a φ.1 φ.2 w * height a ψ.1 ψ.2 v := by
  rw [← heightMap_apply hφ v, ← heightMap_apply hψ v]
  rfl

theorem pairForm_eq_zero_of_met (hne : height a φ.1 φ.2 w ≠ 0) {s : K}
    (h₁ : height a φ.1 φ.2 (v + s • (w - v)) = 0) (h₂ : height a ψ.1 ψ.2 (v + s • (w - v)) = 0) :
    pairForm a I w φ ψ v = 0 := by
  rw [height_segment hφ] at h₁
  rw [height_segment hψ] at h₂
  have hs : s ≠ 1 := by
    rintro rfl
    rw [one_mul, add_sub_cancel] at h₁
    exact hne h₁
  have hmul : (1 - s) * (height a ψ.1 ψ.2 w * height a φ.1 φ.2 v -
      height a φ.1 φ.2 w * height a ψ.1 ψ.2 v) = 0 := by
    linear_combination height a ψ.1 ψ.2 w * h₁ - height a φ.1 φ.2 w * h₂
  rw [pairForm_apply hφ hψ]
  exact (mul_eq_zero.mp hmul).resolve_left (sub_ne_zero.mpr hs.symm)

theorem form_eq_of_pairForm_eq_zero (hne : height a φ.1 φ.2 w ≠ 0)
    (h : pairForm a I w φ ψ = 0) : form (K := K) a ψ.1 ψ.2 =
      (height a ψ.1 ψ.2 w / height a φ.1 φ.2 w) • form a φ.1 φ.2 := by
  funext i
  have hi : pairForm a I w φ ψ (Pi.single i 1) = 0 := by rw [h, LinearMap.zero_apply]
  rw [pairForm_apply hφ hψ, ← form, ← form] at hi
  rw [Pi.smul_apply, smul_eq_mul, div_mul_eq_mul_div, eq_div_iff hne]
  linarith

end PairForm

theorem exists_crossesApart (hv : Induces a I v T) (hw : Induces a I w T') :
    ∃ v' w' : ι → K, Induces a I v' T ∧ Induces a I w' T' ∧ IsGeneric a I v' ∧ IsGeneric a I w' ∧
      CrossesApart a I v' w' := by
  classical
  obtain ⟨d, hd⟩ := exists_isGeneric (K := K) a I
  obtain ⟨ε, hw', hgw⟩ := ((hw.eventually d).and (hd.eventually_add w)).exists
  set w' := w + ε • d
  -- The direction at the start avoids the pairs of planes that would be met together.
  let F : Finset ((ι → K) →ₗ[K] K) := ((folds K a I).image (heightMap a I) ∪
    ((folds K a I) ×ˢ (folds K a I)).image fun q => pairForm a I w' q.1 q.2).erase 0
  obtain ⟨u, hu⟩ := exists_forall_ne_zero F fun f hf => Finset.ne_of_mem_erase hf
  have hall : ∀ f ∈ F, ∀ᶠ ε in 𝓝[>] (0 : K), f (v + ε • u) ≠ 0 := fun f hf => by
    simp only [map_add, map_smul, smul_eq_mul]
    exact eventually_add_mul_ne_zero (Or.inr (hu f hf))
  obtain ⟨η, hv', hη⟩ := ((hv.eventually u).and ((eventually_all_finset _).mpr hall)).exists
  refine ⟨v + η • u, w', hv', hw', fun φ hφ => ?_, hgw, fun φ hφ ψ hψ s _ _ h₁ h₂ => ?_⟩
  · rw [← heightMap_apply hφ]
    exact hη _ (Finset.mem_erase.mpr ⟨heightMap_ne_zero hφ,
      Finset.mem_union_left _ (Finset.mem_image_of_mem _ hφ)⟩)
  · refine ⟨_, form_eq_of_pairForm_eq_zero hφ hψ (hgw φ hφ) ?_⟩
    by_contra hne
    exact hη _ (Finset.mem_erase.mpr ⟨hne, Finset.mem_union_right _ (Finset.mem_image.mpr
      ⟨(φ, ψ), Finset.mem_product.mpr ⟨hφ, hψ⟩, rfl⟩)⟩)
      (pairForm_eq_zero_of_met hφ hψ (hgw φ hφ) h₁ h₂)

section Closed

variable (hspan : Submodule.span K (a '' I) = ⊤) {ℓ : E →ₗ[K] K} (hℓ : ∀ i ∈ I, 0 < ℓ (a i))
  {R : Set (Set (Finset ι))} (hR : ∀ T ∈ R, ∀ v : ι → K, Induces a I v T →
    ∃ G : Finset (ι → K), CutsOut a I T G ∧ ∀ g p, Bounds I G g p → flipped I T g ∈ R)

include hspan hℓ hR

/-- Behind the first wall on the way between generic heights the set of triangulations is not
left. -/
theorem eventually_mem_of_wall (hT : T ∈ R) (hv : Induces a I v T) (hgen : IsGeneric a I v)
    (hapart : CrossesApart a I v w) {s : K} (hs0 : 0 < s) (hs1 : s < 1)
    (hside : ∀ φ ∈ folds K a I, 0 ≤ height a φ.1 φ.2 v * height a φ.1 φ.2 (v + s • (w - v))) :
    ∀ᶠ δ in 𝓝[>] (0 : K), ∃ T' ∈ R, Induces a I (v + s • (w - v) + δ • (w - v)) T' := by
  obtain ⟨G, hG, hflips⟩ := hR T hT v hv
  by_cases hind : Induces a I (v + s • (w - v)) T
  · exact (hind.eventually (w - v)).mono fun δ hδ => ⟨T, hT, hδ⟩
  obtain ⟨φ, hφ, c, hc, hg, hφv, hφ0⟩ := hG.exists_met hv hside hind
  set g := c • form (K := K) a φ.1 φ.2
  have hb := hG.bounds hv hapart hs0 hs1 hside hg (by rw [sum_smul_form hφ, hφ0, mul_zero])
  filter_upwards [hgen.eventually_behind hs1 (w := w)] with δ hδ
  refine ⟨flipped I T g, hflips g _ hb, ?_⟩
  obtain ⟨ε, hflip, hεpos, hεneg, hε⟩ := ((hG.eventually_induces_flipped hv hspan hℓ hb).and
    ((eventually_height_pos a I (v + s • (w - v)) (-g)).and
      ((eventually_height_neg a I (v + s • (w - v)) (-g)).and eventually_pos))).exists
  rw [neg_smul, ← smul_neg] at hflip
  refine hflip.of_sameSides fun ψ hψ => ?_
  obtain ⟨hI, hj, hsim, -⟩ := mem_folds.mp hψ
  by_cases hψ0 : height a ψ.1 ψ.2 (v + s • (w - v)) = 0
  · obtain ⟨k, hk⟩ := hapart φ hφ ψ hψ s hs0.le hs1.le hφ0 hψ0
    refine height_mul_pos_of_form_eq hφ hψ hk (mul_pos_of_neg_of_neg ?_ ?_)
    · rw [smul_neg, ← neg_smul, height_add_smul_of_mem hφ, hφ0, zero_add]
      exact mul_neg_of_neg_of_pos (neg_neg_of_pos hε) (height_form_pos hφ hc)
    · have hwφ : height a φ.1 φ.2 w < 0 := by
        rw [height_segment hφ] at hφ0
        nlinarith
      have hδφ := (hδ φ hφ).2 hφ0
      exact neg_of_mul_pos_right hδφ hwφ.le
  · have h₁ := (hδ ψ hψ).1 hψ0
    rcases lt_or_gt_of_ne hψ0 with hlt | hgt
    · have h₂ := hεneg ψ.1 (Finset.mem_powerset.mpr hI) ψ.2 hj hsim hlt
      exact mul_pos_of_neg_of_neg h₂ (by nlinarith)
    · have h₂ := hεpos ψ.1 (Finset.mem_powerset.mpr hI) ψ.2 hj hsim hgt
      exact mul_pos h₂ (by nlinarith)

theorem mem_of_crossesApart (hT : T ∈ R) (hv : Induces a I v T) (hgv : IsGeneric a I v)
    (hgw : IsGeneric a I w) (hapart : CrossesApart a I v w) (hw : Induces a I w T') : T' ∈ R := by
  -- The number of planes that are crossed on the way falls behind each wall.
  induction hn : (changes a I v w).card using Nat.strong_induction_on generalizing v T with
  | _ n ih =>
    by_cases hch : ∃ φ ∈ folds K a I, height a φ.1 φ.2 v * height a φ.1 φ.2 w < 0
    · obtain ⟨s, hs0, hs1, hside, φ, hφ, hφ0⟩ := hgv.exists_first_wall hgw hch
      have hsmall : ∀ᶠ δ in 𝓝[>] (0 : K), δ ∈ Set.Ioo 0 (1 - s) :=
        Ioo_mem_nhdsGT (sub_pos.mpr hs1)
      obtain ⟨δ, ⟨T₁, hT₁, hv₁⟩, hbehind, hδ⟩ :=
        ((eventually_mem_of_wall hspan hℓ hR hT hv hgv hapart hs0 hs1 hside).and
          ((hgv.eventually_behind hs1).and hsmall)).exists
      refine ih _ ?_ hT₁ hv₁ (fun ψ hψ h0 => ?_) ?_ rfl
      · rw [← hn]
        exact Finset.card_lt_card (changes_ssubset hgv hs0 hs1 hside hbehind hφ hφ0)
      · by_cases hψ0 : height a ψ.1 ψ.2 (v + s • (w - v)) = 0
        · exact absurd ((hbehind ψ hψ).2 hψ0) (by rw [h0, mul_zero]; exact lt_irrefl _)
        · exact absurd ((hbehind ψ hψ).1 hψ0) (by rw [h0, mul_zero]; exact lt_irrefl _)
      · rw [add_assoc, ← add_smul]
        exact hapart.tail (by linarith [hδ.1]) (by linarith [hδ.2])
    · push Not at hch
      rwa [← (hv.of_sameSides fun φ hφ => lt_of_le_of_ne (hch φ hφ)
        (mul_ne_zero (hgv φ hφ) (hgw φ hφ)).symm).ext hw]

/-- A set of triangulations that is closed under flips on bounding walls and not empty holds every
triangulation that heights induce. -/
theorem mem_of_closed (hT : T ∈ R) (hv : Induces a I v T) (hw : Induces a I w T') : T' ∈ R := by
  obtain ⟨v', w', hv', hw', hgv, hgw, hapart⟩ := exists_crossesApart hv hw
  exact mem_of_crossesApart hspan hℓ hR hT hv' hgv hgw hapart hw'

end Closed

end Orthant.Lifting
