import Mathlib

/-! # Sums of exponentials

A sum of monomials is a sum of exponentials in the logarithms of the unknowns. When the exponents of
one sum lie inside the hull of those of another, their quotient grows in every direction. So it has
a least value, and at that place the two sums have proportional derivatives.
-/

namespace Orthant

open Filter Topology Finset

variable {ι J K : Type*} [Fintype ι] [Fintype J] [Fintype K] {a : J → ι → ℝ} {b : K → ι → ℝ}
  {α : J → ℝ} {β : K → ℝ} {u : ι → ℝ}

/-- The sum of exponentials with given exponents and coefficients. -/
noncomputable def expSum (a : J → ι → ℝ) (α : J → ℝ) (u : ι → ℝ) : ℝ :=
  ∑ j, α j * Real.exp (a j ⬝ᵥ u)

theorem expSum_pos [Nonempty J] (hα : ∀ j, 0 < α j) (u : ι → ℝ) : 0 < expSum a α u :=
  sum_pos (fun j _ => mul_pos (hα j) (Real.exp_pos _)) univ_nonempty

theorem expSum_neg (a : J → ι → ℝ) (α : J → ℝ) (u : ι → ℝ) :
    expSum a (fun j => -α j) u = -expSum a α u := by
  simp [expSum]

theorem continuous_expSum : Continuous (expSum a α) := by
  unfold expSum dotProduct
  fun_prop

theorem hasDerivAt_expSum [DecidableEq ι] (i : ι) (u : ι → ℝ) :
    HasDerivAt (fun s : ℝ => expSum a α (u + s • Pi.single i 1)) (expSum a (fun j => α j * a j i) u)
      0 := by
  have hterm : ∀ j, HasDerivAt (fun s : ℝ => α j * Real.exp (a j ⬝ᵥ (u + s • Pi.single i 1)))
      (α j * a j i * Real.exp (a j ⬝ᵥ u)) 0 := by
    intro j
    have hlin : HasDerivAt (fun s : ℝ => a j ⬝ᵥ (u + s • Pi.single i 1)) (a j i) 0 := by
      simp only [dotProduct_add, dotProduct_smul, dotProduct_single_one, smul_eq_mul]
      simpa using ((hasDerivAt_id (0 : ℝ)).mul_const (a j i)).const_add (a j ⬝ᵥ u)
    refine (hlin.exp.const_mul (α j)).congr_deriv ?_
    simp only [zero_smul, add_zero]
    ring
  exact HasDerivAt.fun_sum fun j _ => hterm j

/-! ## Growth -/

/-- Inside a hull some exponent is ahead in every direction, by a fixed multiple of the distance. -/
theorem exists_ahead {y : ι → ℝ} (hy : y ∈ interior (convexHull ℝ (Set.range a))) :
    ∃ ε > 0, ∀ u, ∃ j, y ⬝ᵥ u + ε * ‖u‖ ≤ a j ⬝ᵥ u := by
  obtain ⟨ε, hε, hball⟩ := Metric.nhds_basis_closedBall.mem_iff.mp (mem_interior_iff_mem_nhds.mp hy)
  refine ⟨ε, hε, fun u => ?_⟩
  let v : ι → ℝ := fun i => SignType.sign (u i)
  have hv : y + ε • v ∈ convexHull ℝ (Set.range a) := by
    refine hball ?_
    rw [Metric.mem_closedBall, dist_eq_norm, add_sub_cancel_left, norm_smul,
      Real.norm_of_nonneg hε.le]
    refine mul_le_of_le_one_right hε.le ((pi_norm_le_iff_of_nonneg zero_le_one).mpr fun i => ?_)
    rcases lt_trichotomy (u i) 0 with h | h | h <;> simp [v, h]
  have hvu : ‖u‖ ≤ v ⬝ᵥ u := by
    have hterm : ∀ i, v i * u i = |u i| := fun i => sign_mul_self (u i)
    simp only [dotProduct, hterm]
    refine (pi_norm_le_iff_of_nonneg (sum_nonneg fun i _ => abs_nonneg _)).mpr fun i => ?_
    exact single_le_sum (f := fun i => |u i|) (fun i _ => abs_nonneg _) (mem_univ i)
  by_contra! hall
  have hlt : ∀ j, a j ⬝ᵥ u < (y + ε • v) ⬝ᵥ u := fun j => by
    rw [add_dotProduct, smul_dotProduct, smul_eq_mul]
    exact (hall j).trans_le (by gcongr)
  have hconvex : Convex ℝ { z : ι → ℝ | z ⬝ᵥ u < (y + ε • v) ⬝ᵥ u } :=
    convex_halfSpace_lt ⟨fun x z => add_dotProduct x z u, fun c x => smul_dotProduct c x u⟩ _
  have hmem : (y + ε • v) ⬝ᵥ u < (y + ε • v) ⬝ᵥ u :=
    convexHull_min (Set.range_subset_iff.mpr hlt) hconvex hv
  exact lt_irrefl _ hmem

theorem tendsto_exp_div (hα : ∀ j, 0 < α j) {y : ι → ℝ}
    (hy : y ∈ interior (convexHull ℝ (Set.range a))) :
    Tendsto (fun u => Real.exp (y ⬝ᵥ u) / expSum a α u) (cocompact (ι → ℝ)) (𝓝 0) := by
  obtain ⟨ε, hε, hahead⟩ := exists_ahead hy
  have : Nonempty J := ⟨(hahead 0).choose⟩
  obtain ⟨j₀, hj₀⟩ := Finite.exists_min α
  have hdecay : Tendsto (fun u : ι → ℝ => (α j₀)⁻¹ * Real.exp (-(ε * ‖u‖))) (cocompact _)
      (𝓝 0) := by
    have hnorm : Tendsto (fun u : ι → ℝ => ε * ‖u‖) (cocompact _) atTop :=
      (tendsto_norm_cocompact_atTop).const_mul_atTop hε
    simpa using (Real.tendsto_exp_neg_atTop_nhds_zero.comp hnorm).const_mul (α j₀)⁻¹
  refine squeeze_zero (fun u => (div_pos (Real.exp_pos _) (expSum_pos hα u)).le)
    (fun u => ?_) hdecay
  obtain ⟨j, hj⟩ := hahead u
  have hle : α j₀ * Real.exp (y ⬝ᵥ u + ε * ‖u‖) ≤ expSum a α u :=
    calc α j₀ * Real.exp (y ⬝ᵥ u + ε * ‖u‖) ≤ α j * Real.exp (a j ⬝ᵥ u) :=
          mul_le_mul (hj₀ j) (Real.exp_le_exp.mpr hj) (Real.exp_pos _).le (hα j).le
      _ ≤ expSum a α u := single_le_sum (f := fun j => α j * Real.exp (a j ⬝ᵥ u))
          (fun j _ => (mul_pos (hα j) (Real.exp_pos _)).le) (mem_univ j)
  rw [div_le_iff₀ (expSum_pos hα u)]
  calc Real.exp (y ⬝ᵥ u) =
        (α j₀)⁻¹ * Real.exp (-(ε * ‖u‖)) * (α j₀ * Real.exp (y ⬝ᵥ u + ε * ‖u‖)) := by
        rw [mul_mul_mul_comm, inv_mul_cancel₀ (hα j₀).ne', one_mul, ← Real.exp_add]
        ring_nf
    _ ≤ _ := mul_le_mul_of_nonneg_left hle (mul_pos (inv_pos.mpr (hα j₀)) (Real.exp_pos _)).le

/-! ## The least quotient -/

variable [Nonempty K] (hα : ∀ j, 0 < α j) (hβ : ∀ k, 0 < β k)
  (hint : ∀ k, b k ∈ interior (convexHull ℝ (Set.range a)))

include hα hβ hint

theorem tendsto_quotient :
    Tendsto (fun u => expSum a α u / expSum b β u) (cocompact (ι → ℝ)) atTop := by
  have : Nonempty J := by
    obtain ⟨ε, -, hahead⟩ := exists_ahead (hint (Classical.arbitrary K))
    exact ⟨(hahead 0).choose⟩
  have hzero : Tendsto (fun u => expSum b β u / expSum a α u) (cocompact (ι → ℝ)) (𝓝 0) := by
    have hsum := tendsto_finsetSum (univ : Finset K) fun k _ =>
      (tendsto_exp_div hα (hint k)).const_mul (β k)
    simpa [expSum, sum_div, mul_div_assoc] using hsum
  have hpos : ∀ u, 0 < expSum b β u / expSum a α u := fun u =>
    div_pos (expSum_pos hβ u) (expSum_pos hα u)
  have hinv := (tendsto_nhdsWithin_of_tendsto_nhds_of_eventually_within _ hzero
    (Eventually.of_forall hpos)).inv_tendsto_nhdsGT_zero
  simpa [Pi.inv_def, inv_div] using hinv

/-- The quotient of the sums has a least value. There the sums and their derivatives are in the same
proportion. -/
theorem exists_least_quotient [DecidableEq ι] : ∃ t u₀, expSum a α u₀ = t * expSum b β u₀ ∧
    (∀ i, expSum a (fun j => α j * a j i) u₀ = t * expSum b (fun k => β k * b k i) u₀) ∧
      ∀ u, t * expSum b β u ≤ expSum a α u := by
  have hpos : ∀ u, 0 < expSum b β u := expSum_pos hβ
  have hcont : Continuous fun u => expSum a α u / expSum b β u :=
    continuous_expSum.div continuous_expSum fun u => (hpos u).ne'
  obtain ⟨u₀, hmin⟩ := hcont.exists_forall_le (tendsto_quotient hα hβ hint)
  set t := expSum a α u₀ / expSum b β u₀ with ht
  have heq : expSum a α u₀ = t * expSum b β u₀ := (div_mul_cancel₀ _ (hpos u₀).ne').symm
  have hle : ∀ u, t * expSum b β u ≤ expSum a α u := fun u => (le_div_iff₀ (hpos u)).mp (hmin u)
  refine ⟨t, u₀, heq, fun i => ?_, hle⟩
  -- Along each coordinate the difference is nowhere negative and zero here.
  have hderiv := (hasDerivAt_expSum (a := a) (α := α) i u₀).sub
    ((hasDerivAt_expSum (a := b) (α := β) i u₀).const_mul t)
  have hlocal : IsLocalMin ((fun s : ℝ => expSum a α (u₀ + s • Pi.single i 1)) -
      fun s : ℝ => t * expSum b β (u₀ + s • Pi.single i 1)) 0 := by
    refine Eventually.of_forall fun s => ?_
    simp only [Pi.sub_apply, zero_smul, add_zero, heq, sub_self, sub_nonneg]
    exact hle _
  exact sub_eq_zero.mp (hlocal.hasDerivAt_eq_zero hderiv)

end Orthant
