import Orthant.Proofs.Lifting.Path

/-! # Crossing a wall

Behind a bounding wall the flip is induced, and it has the opposite form as a bounding wall at the
same point. So the flip on the opposite form leads back.
-/

set_option linter.unusedSectionVars false

open Filter Topology

namespace Orthant.Lifting

variable {K E ι : Type*} [Field K] [LinearOrder K] [IsStrictOrderedRing K]
  [AddCommGroup E] [Module K E] [FiniteDimensional K E] [DecidableEq ι]
  [TopologicalSpace K] [OrderTopology K]

variable {a : ι → E} {I : Finset ι} {v p u : ι → K} {T T' : Set (Finset ι)} {g g' : ι → K}
  {G G' : Finset (ι → K)}

theorem Bounds.eventually_add_smul (hb : Bounds I G g p) (hu : ∑ i ∈ I, g i * u i = 0) :
    ∀ᶠ ε in 𝓝[>] (0 : K), Bounds I G g (p + ε • u) := by
  have hall : ∀ g' ∈ G, ∀ᶠ ε in 𝓝[>] (0 : K), g' ≠ g → 0 < ∑ i ∈ I, g' i * (p + ε • u) i := by
    intro g' hg'
    simp only [sum_add_smul]
    by_cases he : g' = g
    · exact .of_forall fun _ hne => absurd he hne
    · exact (eventually_add_mul_pos (hb.pos g' hg' he) _).mono fun _ h _ => h
  refine ((eventually_all_finset _).mpr hall).mono fun ε hε => ⟨hb.mem, ?_, hε⟩
  rw [sum_add_smul, hb.zero, hu, mul_zero, add_zero]

theorem CutsOut.not_induces_of_behind (hG : CutsOut a I T G) (hb : Bounds I G g p)
    (hT' : ∀ᶠ ε in 𝓝[>] (0 : K), Induces a I (p + (-ε) • g) T') : ¬ Induces a I p T' := by
  intro hp
  have hsq := hG.sum_sq_pos hb.mem
  obtain ⟨ε, hfront, hfront'⟩ := ((hG.eventually_induces hb hsq).and (hp.eventually g)).exists
  obtain rfl := hfront.ext hfront'
  obtain ⟨δ, hδ, hpos⟩ := (hT'.and eventually_pos).exists
  have := (hG.induces_iff _).mp hδ g hb.mem
  rw [sum_add_smul, hb.zero, zero_add] at this
  nlinarith

section Behind

variable (hG : CutsOut a I T G) (hb : Bounds I G g p)
  (hbehind : ∀ p, Bounds I G g p → ∀ᶠ ε in 𝓝[>] (0 : K), Induces a I (p + (-ε) • g) T')
  (hG' : CutsOut a I T' G')

include hbehind hG'

theorem CutsOut.nonneg_of_behind (hb : Bounds I G g p) (hg' : g' ∈ G') :
    0 ≤ ∑ i ∈ I, g' i * p i := by
  refine nonneg_of_frequently (β := -∑ i ∈ I, g' i * g i) (Eventually.frequently ?_)
  filter_upwards [hbehind p hb] with ε hε
  have := (hG'.induces_iff _).mp hε g' hg'
  rw [sum_add_smul] at this
  linarith

include hG hb

theorem CutsOut.eq_smul_of_behind (hg' : g' ∈ G') (hle : ∑ i ∈ I, g' i * p i ≤ 0) :
    ∃ s : K, 0 < s ∧ g' = (-s) • g := by
  have hzero : ∑ i ∈ I, g' i * p i = 0 :=
    le_antisymm hle (CutsOut.nonneg_of_behind hbehind hG' hb hg')
  have hnonneg : ∀ u : ι → K, ∑ i ∈ I, g i * u i = 0 → 0 ≤ ∑ i ∈ I, g' i * u i := by
    intro u hu
    obtain ⟨ε, hε, hpos⟩ := ((hb.eventually_add_smul hu).and eventually_pos).exists
    have := CutsOut.nonneg_of_behind hbehind hG' hε hg'
    rw [sum_add_smul, hzero, zero_add] at this
    exact nonneg_of_mul_nonneg_right this hpos
  have hker : ∀ u : ι → K, ∑ i ∈ I, g i * u i = 0 → ∑ i ∈ I, g' i * u i = 0 := by
    intro u hu
    refine le_antisymm ?_ (hnonneg u hu)
    have := hnonneg (-u) (by simp [hu])
    simpa using this
  have hsq := hG.sum_sq_pos hb.mem
  have heq : g' = ((∑ i ∈ I, g' i * g i) / ∑ i ∈ I, g i * g i) • g := funext fun i => by
    rw [Pi.smul_apply, smul_eq_mul]
    by_cases hi : i ∈ I
    · exact eq_div_mul_of_kernel hsq hker hi
    · rw [hG'.eq_zero_of_notMem hg' hi, hG.eq_zero_of_notMem hb.mem hi, mul_zero]
  have hneg : ∑ i ∈ I, g' i * g i < 0 := by
    obtain ⟨ε, hε, hpos⟩ := ((hbehind p hb).and eventually_pos).exists
    have := (hG'.induces_iff _).mp hε g' hg'
    rw [sum_add_smul, hzero, zero_add] at this
    nlinarith
  exact ⟨_, neg_pos.mpr (div_neg_of_neg_of_pos hneg hsq), by rwa [neg_neg]⟩

theorem CutsOut.exists_bounds_behind : ∃ s : K, 0 < s ∧ Bounds I G' ((-s) • g) p := by
  have hnot := hG.not_induces_of_behind hb (hbehind p hb)
  rw [hG'.induces_iff] at hnot
  push Not at hnot
  obtain ⟨g', hg', hle⟩ := hnot
  obtain ⟨s, hs, rfl⟩ := hG.eq_smul_of_behind hb hbehind hG' hg' hle
  refine ⟨s, hs, hg', ?_, fun h hh hne => ?_⟩
  · simp only [Pi.smul_apply, smul_eq_mul, mul_assoc]
    rw [← Finset.mul_sum, hb.zero, mul_zero]
  · by_contra hle'
    obtain ⟨t, ht, rfl⟩ := hG.eq_smul_of_behind hb hbehind hG' hh (not_lt.mp hle')
    refine hne (hG'.ray _ hg' _ hh (t / s) (div_pos ht hs) ?_)
    rw [smul_smul, mul_neg, div_mul_cancel₀ _ hs.ne']

end Behind

/-- The flip on the opposite form of the flip behind a bounding wall is the triangulation in front
of it. -/
theorem CutsOut.flipped_flipped (hG : CutsOut a I T G) (hv : Induces a I v T)
    (hspan : Submodule.span K (a '' I) = ⊤) {ℓ : E →ₗ[K] K} (hℓ : ∀ i ∈ I, 0 < ℓ (a i))
    (hb : Bounds I G g p) (hG' : CutsOut a I (flipped I T g) G') :
    ∃ s : K, 0 < s ∧ (-s) • g ∈ G' ∧ flipped I (flipped I T g) ((-s) • g) = T := by
  have hbehind : ∀ p, Bounds I G g p →
      ∀ᶠ ε in 𝓝[>] (0 : K), Induces a I (p + (-ε) • g) (flipped I T g) := fun p hb =>
    hG.eventually_induces_flipped hv hspan hℓ hb
  obtain ⟨s, hs, hb'⟩ := hG.exists_bounds_behind hb hbehind hG'
  obtain ⟨ε, hε⟩ := (hbehind p hb).exists
  have hfront : 0 < ∑ i ∈ I, g i * (s • g) i := by
    simp only [Pi.smul_apply, smul_eq_mul, mul_left_comm _ s]
    rw [← Finset.mul_sum]
    exact mul_pos hs (hG.sum_sq_pos hb.mem)
  obtain ⟨δ, hδ, hδ'⟩ := ((hG'.eventually_induces_flipped hε hspan hℓ hb').and
    (hG.eventually_induces hb hfront)).exists
  refine ⟨s, hs, hb'.mem, hδ.ext ?_⟩
  rwa [neg_smul s, smul_neg, neg_smul δ, neg_neg]

end Orthant.Lifting
