import Orthant.Proofs.Lifting.Flip

/-! # Generic heights

Heights are generic when no vector outside a simplex lies on its lifted plane. They induce a
triangulation that depends only on which vectors lie above which planes. Between generic heights
there is a path that crosses one wall at a time, so every triangulation is reached from any other by
flips.
-/

set_option linter.unusedSectionVars false

open Filter Topology

namespace Orthant.Lifting

variable {K E ι : Type*} [Field K] [LinearOrder K] [IsStrictOrderedRing K]
  [AddCommGroup E] [Module K E] [FiniteDimensional K E] [DecidableEq ι]

open Classical in
noncomputable def folds (K : Type*) {E ι : Type*} [Field K] [AddCommGroup E] [Module K E]
    (a : ι → E) (I : Finset ι) : Finset (Finset ι × ι) :=
  (I.powerset ×ˢ I).filter fun φ => IsSimplex K a φ.1 ∧ φ.2 ∉ φ.1

/-- No vector lies on the lifted plane of a simplex that it is not a vertex of. -/
def IsGeneric (a : ι → E) (I : Finset ι) (w : ι → K) : Prop :=
  ∀ φ ∈ folds K a I, height a φ.1 φ.2 w ≠ 0

/-- All vectors lie on the same sides of all lifted planes. -/
def SameSides (a : ι → E) (I : Finset ι) (v w : ι → K) : Prop :=
  ∀ φ ∈ folds K a I, 0 < height a φ.1 φ.2 v * height a φ.1 φ.2 w

variable {a : ι → E} {I σ τ : Finset ι} {w v p u : ι → K} {T T' : Set (Finset ι)} {g : ι → K}

theorem mem_folds {φ : Finset ι × ι} :
    φ ∈ folds K a I ↔ φ.1 ⊆ I ∧ φ.2 ∈ I ∧ IsSimplex K a φ.1 ∧ φ.2 ∉ φ.1 := by
  classical
  simp only [folds, Finset.mem_filter, Finset.mem_product, Finset.mem_powerset]
  tauto

theorem height_add_smul_of_mem {φ : Finset ι × ι} (hφ : φ ∈ folds K a I) (w v : ι → K) (s : K) :
    height a φ.1 φ.2 (w + s • v) = height a φ.1 φ.2 w + s * height a φ.1 φ.2 v :=
  (mem_folds.mp hφ).2.2.1.height_add_smul ..

theorem Induces.ext (h : Induces a I w T) (h' : Induces a I w T') : T = T' :=
  Set.ext fun _ => h.isLower_iff.symm.trans h'.isLower_iff

theorem IsGeneric.induces (h : IsGeneric a I w) : Induces a I w { σ | IsLower a I w σ } :=
  ⟨fun _ hσ => hσ, fun σ hσ => ⟨hσ, fun j hj hjσ => lt_of_le_of_ne (hσ.height_nonneg j hj)
    (h (σ, j) (mem_folds.mpr ⟨hσ.subset, hj, hσ.simplex, hjσ⟩)).symm⟩⟩

theorem Induces.of_sameSides (h : Induces a I v T) (hvw : SameSides a I v w) :
    Induces a I w T := by
  have hside : ∀ τ ⊆ I, IsSimplex K a τ → ∀ j ∈ I, j ∉ τ →
      0 < height a τ j v * height a τ j w := fun τ hτ hs j hj hjτ =>
    hvw (τ, j) (mem_folds.mpr ⟨hτ, hj, hs, hjτ⟩)
  refine ⟨fun τ hτ => h.mem τ (hτ.simplex.isLower hτ.subset fun j hj hjτ => ?_),
    fun σ hσ => ?_⟩
  · exact (pos_of_mul_pos_left (hside τ hτ.subset hτ.simplex j hj hjτ)
      (hτ.height_nonneg j hj)).le
  · have hs := h.strict σ hσ
    exact hs.simplex.isStrict hs.subset fun j hj hjσ =>
      pos_of_mul_pos_right (hside σ hs.subset hs.simplex j hj hjσ) (hs.height_nonneg j hj)

theorem exists_forall_ne_zero (F : Finset ((ι → K) →ₗ[K] K)) (hF : ∀ f ∈ F, f ≠ 0) :
    ∃ u, ∀ f ∈ F, f u ≠ 0 := by
  obtain ⟨u, hu⟩ := Module.Dual.exists_forall_ne_zero_of_forall_exists (K := K)
    (fun f : F => (f : (ι → K) →ₗ[K] K)) fun f => by
      by_contra hno
      push Not at hno
      exact hF f f.2 (LinearMap.ext hno)
  exact ⟨u, fun f hf => hu ⟨f, hf⟩⟩

noncomputable def heightMap (a : ι → E) (I : Finset ι) (φ : Finset ι × ι) : (ι → K) →ₗ[K] K where
  toFun w := ∑ i ∈ I, form a φ.1 φ.2 i * w i
  map_add' w w' := by simp only [Pi.add_apply, mul_add, Finset.sum_add_distrib]
  map_smul' t w := by
    simp only [Pi.smul_apply, smul_eq_mul, mul_left_comm _ t, ← Finset.mul_sum, RingHom.id_apply]

theorem heightMap_apply {φ : Finset ι × ι} (hφ : φ ∈ folds K a I) (w : ι → K) :
    heightMap a I φ w = height a φ.1 φ.2 w := by
  obtain ⟨hI, hj, hs, -⟩ := mem_folds.mp hφ
  rw [hs.height_eq_sum hI hj]
  rfl

theorem heightMap_ne_zero {φ : Finset ι × ι} (hφ : φ ∈ folds K a I) :
    heightMap (K := K) a I φ ≠ 0 := by
  obtain ⟨-, -, hs, hj⟩ := mem_folds.mp hφ
  intro h0
  have := congrArg (fun f => f (Pi.single φ.2 1)) h0
  simp only [heightMap_apply hφ, LinearMap.zero_apply] at this
  rw [← form, hs.form_self hj] at this
  exact one_ne_zero this

variable [TopologicalSpace K] [OrderTopology K]

theorem eventually_add_mul_ne_zero {α β : K} (h : α ≠ 0 ∨ β ≠ 0) :
    ∀ᶠ ε in 𝓝[>] (0 : K), α + ε * β ≠ 0 := by
  rcases lt_trichotomy α 0 with hα | hα | hα
  · filter_upwards [eventually_add_mul_pos (neg_pos.mpr hα) (-β)] with ε hε h0
    linarith
  · subst hα
    filter_upwards [eventually_pos] with ε hε
    simpa using ⟨hε.ne', h.resolve_left (by simp)⟩
  · filter_upwards [eventually_add_mul_pos hα β] with ε hε
    exact hε.ne'

theorem IsGeneric.eventually_add (hu : IsGeneric a I u) (w : ι → K) :
    ∀ᶠ ε in 𝓝[>] (0 : K), IsGeneric a I (w + ε • u) := by
  have : ∀ φ ∈ folds K a I, ∀ᶠ ε in 𝓝[>] (0 : K), height a φ.1 φ.2 (w + ε • u) ≠ 0 :=
    fun φ hφ => (eventually_add_mul_ne_zero (Or.inr (hu φ hφ))).mono fun ε hε => by
      rwa [height_add_smul_of_mem hφ]
  exact (eventually_all_finset _).mpr this

/-- Heights near those that induce a triangulation induce it too. -/
theorem Induces.eventually (h : Induces a I w T) (u : ι → K) :
    ∀ᶠ ε in 𝓝[>] (0 : K), Induces a I (w + ε • u) T := by
  filter_upwards [eventually_height_pos a I w u, eventually_height_neg a I w u] with ε hpos hneg
  refine ⟨fun τ hτ => h.mem τ ⟨hτ.simplex, hτ.subset, fun j hj => not_lt.mp fun hlt => ?_⟩,
    fun σ hσ => ?_⟩
  · exact absurd (hτ.height_nonneg j hj) (not_le.mpr
      (hneg τ (Finset.mem_powerset.mpr hτ.subset) j hj hτ.simplex hlt))
  · have hs := h.strict σ hσ
    exact hs.simplex.isStrict hs.subset fun j hj hjσ =>
      hpos σ (Finset.mem_powerset.mpr hs.subset) j hj hs.simplex (hs.height_pos j hj hjσ)

theorem exists_isGeneric (a : ι → E) (I : Finset ι) : ∃ u : ι → K, IsGeneric a I u := by
  classical
  obtain ⟨u, hu⟩ := exists_forall_ne_zero ((folds K a I).image (heightMap (K := K) a I))
    (by
      intro f hf
      obtain ⟨φ, hφ, rfl⟩ := Finset.mem_image.mp hf
      exact heightMap_ne_zero hφ)
  exact ⟨u, fun φ hφ => by
    rw [← heightMap_apply hφ]; exact hu _ (Finset.mem_image_of_mem _ hφ)⟩

theorem IsSimplex.exists_induces (hs : IsSimplex K a σ) (hσ : σ ⊆ I) :
    ∃ (w : ι → K) (T : Set (Finset ι)), Induces a I w T ∧ σ ∈ T := by
  obtain ⟨u, hu⟩ := exists_isGeneric (K := K) a I
  -- Zero at the vertices and one elsewhere, moved a little in a generic direction.
  let e : ι → K := fun i => if i ∈ σ then 0 else 1
  have hplane : plane a σ e = 0 := (hs.eq_plane (w := e) (f := 0) fun i hi => by simp [e, hi]).symm
  have he : ∀ j ∉ σ, height a σ j e = 1 := fun j hj => by
    rw [height, hplane, LinearMap.zero_apply, sub_zero]; simp [e, hj]
  obtain ⟨ε, hgen, hpos⟩ := ((hu.eventually_add e).and (eventually_height_pos a I e u)).exists
  refine ⟨_, _, hgen.induces, hs.isLower hσ fun j hj hjσ => ?_⟩
  exact (hpos σ (Finset.mem_powerset.mpr hσ) j hj hs (by rw [he j hjσ]; exact one_pos)).le

end Orthant.Lifting
