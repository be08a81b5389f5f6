import Orthant.Proofs.Lifting.Simplex

/-! # The lower envelope of lifted vectors

Heights lift the vectors of a configuration. A simplex is lower when no lifted vector lies below its
plane, and strict when no other one lies on it. Where all lower simplices are strict, each vector of
the hull is in one of them: of all lower planes the highest one at the vector belongs to a simplex
around it, since any other can be raised across a ridge.
-/

set_option linter.unusedSectionVars false

namespace Orthant.Lifting

variable {K E ι : Type*} [Field K] [LinearOrder K] [IsStrictOrderedRing K]
  [AddCommGroup E] [Module K E] [FiniteDimensional K E] [DecidableEq ι]

/-- How far a lifted vector lies above the plane of a simplex. -/
noncomputable def height (a : ι → E) (σ : Finset ι) (j : ι) (w : ι → K) : K :=
  w j - plane a σ w (a j)

/-- No lifted vector lies below the plane of the simplex. -/
structure IsLower (a : ι → E) (I : Finset ι) (w : ι → K) (σ : Finset ι) : Prop where
  simplex : IsSimplex K a σ
  subset : σ ⊆ I
  height_nonneg : ∀ j ∈ I, 0 ≤ height a σ j w

/-- All lifted vectors but the vertices lie above the plane of the simplex. -/
structure IsStrict (a : ι → E) (I : Finset ι) (w : ι → K) (σ : Finset ι) : Prop
    extends IsLower a I w σ where
  height_pos : ∀ j ∈ I, j ∉ σ → 0 < height a σ j w

/-- The vector is a nonnegative combination of the vertices. -/
def InCone (K : Type*) {E ι : Type*} [Field K] [LinearOrder K] [AddCommGroup E] [Module K E]
    [FiniteDimensional K E] [DecidableEq ι] (a : ι → E) (σ : Finset ι) (x : E) : Prop :=
  ∀ i ∈ σ, 0 ≤ coord (K := K) a σ i x

/-- The vector lies on the inner side of every facet of the configuration. -/
def InHull (K : Type*) {E ι : Type*} [Field K] [LinearOrder K] [AddCommGroup E] [Module K E]
    [FiniteDimensional K E] [DecidableEq ι] (a : ι → E) (I : Finset ι) (x : E) : Prop :=
  ∀ σ ⊆ I, IsSimplex K a σ → ∀ k ∈ σ, (∀ j ∈ I, 0 ≤ coord (K := K) a σ k (a j)) →
    0 ≤ coord (K := K) a σ k x

/-- The lower simplices at the heights are those of `T`, and all of them are strict. -/
structure Induces (a : ι → E) (I : Finset ι) (w : ι → K) (T : Set (Finset ι)) : Prop where
  mem : ∀ σ, IsLower a I w σ → σ ∈ T
  strict : ∀ σ ∈ T, IsStrict a I w σ

variable {a : ι → E} {I σ τ : Finset ι} {w v : ι → K} {x : E} {T : Set (Finset ι)}

theorem IsSimplex.height_add_smul (h : IsSimplex K a σ) (j : ι) (w v : ι → K) (s : K) :
    height a σ j (w + s • v) = height a σ j w + s * height a σ j v := by
  simp only [height, h.plane_add_smul, LinearMap.add_apply, LinearMap.smul_apply, Pi.add_apply,
    Pi.smul_apply, smul_eq_mul]
  ring

theorem IsSimplex.height_vertex (h : IsSimplex K a σ) {i : ι} (hi : i ∈ σ) :
    height a σ i w = 0 := by
  rw [height, h.plane_vertex hi, sub_self]

theorem IsSimplex.height_sub (h : IsSimplex K a σ) (j : ι) (w v : ι → K) :
    height a σ j (w - v) = height a σ j w - height a σ j v := by
  have := h.height_add_smul j v (w - v) 1
  rw [one_smul, add_sub_cancel, one_mul] at this
  linarith

theorem IsSimplex.height_segment (h : IsSimplex K a σ) (j : ι) (v w : ι → K) (s : K) :
    height a σ j (v + s • (w - v)) =
      height a σ j v + s * (height a σ j w - height a σ j v) := by
  rw [h.height_add_smul, h.height_sub]

/-- Vertices lie on the plane, so the other vectors decide. -/
theorem IsSimplex.isLower (h : IsSimplex K a σ) (hI : σ ⊆ I)
    (hout : ∀ j ∈ I, j ∉ σ → 0 ≤ height a σ j w) : IsLower a I w σ := by
  refine ⟨h, hI, fun j hj => ?_⟩
  by_cases hjσ : j ∈ σ
  · rw [h.height_vertex hjσ]
  · exact hout j hj hjσ

theorem IsSimplex.isStrict (h : IsSimplex K a σ) (hI : σ ⊆ I)
    (hout : ∀ j ∈ I, j ∉ σ → 0 < height a σ j w) : IsStrict a I w σ :=
  ⟨h.isLower hI fun j hj hjσ => (hout j hj hjσ).le, hout⟩

theorem IsLower.plane_le (h : IsLower a I w σ) {j : ι} (hj : j ∈ I) :
    plane a σ w (a j) ≤ w j :=
  sub_nonneg.mp (h.height_nonneg j hj)

theorem IsLower.of_plane_le (hσ : IsSimplex K a σ) (hI : σ ⊆ I)
    (h : ∀ j ∈ I, plane a σ w (a j) ≤ w j) : IsLower a I w σ :=
  ⟨hσ, hI, fun j hj => sub_nonneg.mpr (h j hj)⟩

theorem inCone_vertex (h : IsSimplex K a σ) {i : ι} (hi : i ∈ σ) : InCone K a σ (a i) := by
  intro k _
  rw [h.coord_vertex hi]
  split <;> simp

theorem IsSimplex.coord_sum (h : IsSimplex K a σ) {i : ι} (hi : i ∈ σ) :
    coord (K := K) a σ i (∑ k ∈ σ, a k) = 1 := by
  rw [map_sum, Finset.sum_eq_single_of_mem i hi fun k hk hki => h.coord_other hk hki,
    h.coord_self hi]

theorem IsSimplex.coord_sum_erase_add (h : IsSimplex K a σ) {i : ι} (hi : i ∈ σ) (k : ι) (s : K)
    (x : E) : coord a σ i (∑ j ∈ σ.erase k, a j + s • x) =
      (if i = k then 0 else 1) + s * coord a σ i x := by
  rw [map_add, map_sum, map_smul, smul_eq_mul]
  congr 1
  split
  case isTrue hik =>
    exact Finset.sum_eq_zero fun j hj =>
      h.coord_other (Finset.mem_of_mem_erase hj) (hik ▸ Finset.ne_of_mem_erase hj)
  case isFalse hik =>
    rw [Finset.sum_eq_single_of_mem i (Finset.mem_erase.mpr ⟨hik, hi⟩) fun j hj hji =>
      h.coord_other (Finset.mem_of_mem_erase hj) hji, h.coord_self hi]

theorem IsSimplex.apply_le_plane (h : IsSimplex K a σ) (hx : InCone K a σ x) {f : E →ₗ[K] K}
    (hf : ∀ i ∈ σ, f (a i) ≤ w i) : f x ≤ plane a σ w x := by
  rw [h.apply_eq_sum f, h.plane_eq_sum]
  exact Finset.sum_le_sum fun i hi => mul_le_mul_of_nonneg_left (hf i hi) (hx i hi)

/-- A plane below the lifted vertices that is as high at a vector of the cone passes through all
vertices that the vector needs. -/
theorem IsSimplex.apply_vertex_of_eq (h : IsSimplex K a σ) (hx : InCone K a σ x)
    {f : E →ₗ[K] K} (hf : ∀ i ∈ σ, f (a i) ≤ w i) (he : plane a σ w x ≤ f x) {i : ι} (hi : i ∈ σ)
    (hpos : 0 < coord (K := K) a σ i x) : f (a i) = w i := by
  have hsum : ∑ k ∈ σ, coord a σ k x * (w k - f (a k)) = 0 := by
    have hle := h.apply_le_plane hx hf
    have : ∑ k ∈ σ, coord a σ k x * (w k - f (a k)) = plane a σ w x - f x := by
      rw [h.apply_eq_sum f, h.plane_eq_sum, ← Finset.sum_sub_distrib]
      exact Finset.sum_congr rfl fun k _ => mul_sub _ _ _
    rw [this]
    linarith
  have hterm := (Finset.sum_eq_zero_iff_of_nonneg fun k hk =>
    mul_nonneg (hx k hk) (sub_nonneg.mpr (hf k hk))).mp hsum i hi
  rcases mul_eq_zero.mp hterm with h0 | h0
  · exact absurd h0 hpos.ne'
  · exact (sub_eq_zero.mp h0).symm

theorem IsLower.plane_le_plane (hσ : IsLower a I w σ) (hτ : IsLower a I w τ)
    (hx : InCone K a σ x) : plane a τ w x ≤ plane a σ w x :=
  hσ.simplex.apply_le_plane hx fun _ hi => hτ.plane_le (hσ.subset hi)

theorem IsLower.plane_eq (hσ : IsLower a I w σ) (hτ : IsLower a I w τ) (hx : InCone K a σ x)
    (hx' : InCone K a τ x) : plane a τ w x = plane a σ w x :=
  le_antisymm (hσ.plane_le_plane hτ hx) (hτ.plane_le_plane hσ hx')

/-- A strict simplex around a vector has all vertices that the vector needs in another one. -/
theorem IsStrict.mem_of_coord_pos (hτ : IsStrict a I w τ) (hσ : IsLower a I w σ)
    (hx : InCone K a σ x) (hx' : InCone K a τ x) {i : ι} (hi : i ∈ σ)
    (hpos : 0 < coord (K := K) a σ i x) : i ∈ τ := by
  by_contra hn
  have he := hσ.simplex.apply_vertex_of_eq hx (fun k hk => hτ.plane_le (hσ.subset hk))
    (hσ.plane_eq hτ.toIsLower hx hx').ge hi hpos
  exact (hτ.height_pos i (hσ.subset hi) hn).ne' (sub_eq_zero.mpr he.symm)

theorem IsStrict.eq_of_inCone_sum (hτ : IsStrict a I w τ) (hσ : IsLower a I w σ)
    (hx : InCone K a τ (∑ k ∈ σ, a k)) : σ = τ := by
  have hc : ∀ i ∈ σ, coord (K := K) a σ i (∑ k ∈ σ, a k) = 1 := fun i hi =>
    hσ.simplex.coord_sum hi
  refine hσ.simplex.eq_of_subset hτ.simplex fun i hi => ?_
  exact hτ.mem_of_coord_pos hσ (fun k hk => by rw [hc k hk]; exact zero_le_one) hx hi
    (by rw [hc i hi]; exact one_pos)

theorem exists_raise {f g : E →ₗ[K] K} (hf : ∀ j ∈ I, f (a j) ≤ w j)
    (hg : ∃ j ∈ I, 0 < g (a j)) :
    ∃ b ∈ I, ∃ s : K, 0 < g (a b) ∧ s * g (a b) = w b - f (a b) ∧
      ∀ j ∈ I, (f + s • g) (a j) ≤ w j := by
  obtain ⟨b, hb, hmin⟩ := Finset.exists_min_image (I.filter fun j => 0 < g (a j))
    (fun j => (w j - f (a j)) / g (a j)) (by
      obtain ⟨j, hj, hpos⟩ := hg
      exact ⟨j, Finset.mem_filter.mpr ⟨hj, hpos⟩⟩)
  obtain ⟨hbI, hpos⟩ := Finset.mem_filter.mp hb
  refine ⟨b, hbI, (w b - f (a b)) / g (a b), hpos, div_mul_cancel₀ _ hpos.ne', fun j hj => ?_⟩
  have hs : 0 ≤ (w b - f (a b)) / g (a b) :=
    div_nonneg (sub_nonneg.mpr (hf b hbI)) hpos.le
  simp only [LinearMap.add_apply, LinearMap.smul_apply, smul_eq_mul]
  by_cases hj' : 0 < g (a j)
  · have := (le_div_iff₀ hj').mp (hmin j (Finset.mem_filter.mpr ⟨hj, hj'⟩))
    linarith
  · have := mul_nonpos_of_nonneg_of_nonpos hs (not_lt.mp hj')
    linarith [hf j hj]

def met [DecidableEq K] (a : ι → E) (I : Finset ι) (w : ι → K) (f : E →ₗ[K] K) : Finset ι :=
  I.filter fun j => f (a j) = w j

/-- A form below all lifted vectors that does not meet enough of them to be fixed can be moved to
meet one more. -/
theorem exists_met_ssubset (hspan : Submodule.span K (a '' I) = ⊤) {f : E →ₗ[K] K}
    (hf : ∀ j ∈ I, f (a j) ≤ w j) (hmet : Submodule.span K (a '' (met a I w f)) ≠ ⊤) :
    ∃ f' : E →ₗ[K] K, (∀ j ∈ I, f' (a j) ≤ w j) ∧ met a I w f ⊂ met a I w f' := by
  obtain ⟨g, hg, hker⟩ := Submodule.exists_le_ker_of_lt_top _ (lt_top_iff_ne_top.mpr hmet)
  have hzero : ∀ j ∈ met a I w f, g (a j) = 0 := fun j hj =>
    hker (Submodule.subset_span ⟨j, hj, rfl⟩)
  obtain ⟨g', hg', hpos⟩ : ∃ g' : E →ₗ[K] K, (∀ j ∈ met a I w f, g' (a j) = 0) ∧
      ∃ j ∈ I, 0 < g' (a j) := by
    by_contra hno
    push Not at hno
    refine hg (LinearMap.ext_on hspan ?_)
    rintro _ ⟨j, hj, rfl⟩
    have h₁ := hno g hzero j hj
    have h₂ := hno (-g) (fun j hj => by simp [hzero j hj]) j hj
    simp only [LinearMap.neg_apply, Left.neg_nonpos_iff] at h₂
    exact le_antisymm h₁ h₂
  obtain ⟨b, hb, s, hbpos, hbs, hle⟩ := exists_raise hf hpos
  refine ⟨f + s • g', hle, Finset.ssubset_iff.mpr ⟨b, fun hm => hbpos.ne' (hg' b hm), ?_⟩⟩
  refine Finset.insert_subset (Finset.mem_filter.mpr ⟨hb, ?_⟩) fun j hj => ?_
  · simp only [LinearMap.add_apply, LinearMap.smul_apply, smul_eq_mul]
    linarith
  · obtain ⟨hjI, he⟩ := Finset.mem_filter.mp hj
    exact Finset.mem_filter.mpr ⟨hjI, by simp [he, hg' j hj]⟩

theorem exists_met_span (hspan : Submodule.span K (a '' I) = ⊤) {φ : E →ₗ[K] K}
    (hφ : ∀ i ∈ I, 0 < φ (a i)) (w : ι → K) : ∃ f : E →ₗ[K] K, (∀ j ∈ I, f (a j) ≤ w j) ∧
      Submodule.span K (a '' (met a I w f)) = ⊤ := by
  by_contra hn
  push Not at hn
  have hgrow : ∀ n : ℕ, ∃ f : E →ₗ[K] K, (∀ j ∈ I, f (a j) ≤ w j) ∧ n ≤ (met a I w f).card := by
    intro n
    induction n with
    | zero =>
      obtain rfl | hI := I.eq_empty_or_nonempty
      · exact ⟨0, by simp, Nat.zero_le _⟩
      · obtain ⟨b, hb, hmin⟩ := Finset.exists_min_image I (fun j => w j / φ (a j)) hI
        refine ⟨(w b / φ (a b)) • φ, fun j hj => ?_, Nat.zero_le _⟩
        simpa using (le_div_iff₀ (hφ j hj)).mp (hmin j hj)
    | succ n ih =>
      obtain ⟨f, hf, hcard⟩ := ih
      obtain ⟨f', hf', hlt⟩ := exists_met_ssubset hspan hf (hn f hf)
      exact ⟨f', hf', Nat.lt_of_le_of_lt hcard (Finset.card_lt_card hlt)⟩
  obtain ⟨f, -, hcard⟩ := hgrow (I.card + 1)
  exact absurd (hcard.trans (Finset.card_filter_le _ _)) (by omega)

theorem exists_isLower (hspan : Submodule.span K (a '' I) = ⊤) {φ : E →ₗ[K] K}
    (hφ : ∀ i ∈ I, 0 < φ (a i)) (w : ι → K) : ∃ σ, IsLower a I w σ := by
  obtain ⟨f, hf, htop⟩ := exists_met_span hspan hφ w
  obtain ⟨σ, hσ, hs⟩ := exists_isSimplex htop
  have hfσ : f = plane a σ w := hs.eq_plane fun i hi => (Finset.mem_filter.mp (hσ hi)).2
  exact ⟨σ, .of_plane_le hs (hσ.trans (Finset.filter_subset _ _)) fun j hj => hfσ ▸ hf j hj⟩

/-- If a coordinate is negative at a vector of the hull, the plane of a strict simplex can be raised
there by the exchange of that vertex. -/
theorem IsStrict.exists_higher (hσ : IsStrict a I w σ) (hx : InHull K a I x) {k : ι} (hk : k ∈ σ)
    (hneg : coord (K := K) a σ k x < 0) :
    ∃ τ, IsLower a I w τ ∧ plane a σ w x < plane a τ w x := by
  have hdown : ∃ j ∈ I, 0 < (-coord a σ k : E →ₗ[K] K) (a j) := by
    by_contra hno
    push Not at hno
    refine absurd (hx σ hσ.subset hσ.simplex k hk fun j hj => ?_) (not_le.mpr hneg)
    simpa using hno j hj
  obtain ⟨b, hb, s, hbneg, hbs, hle⟩ := exists_raise (fun j hj => hσ.plane_le hj) hdown
  simp only [LinearMap.neg_apply, Left.neg_pos_iff] at hbneg
  have hbσ : b ∉ σ := fun hm => by
    rw [hσ.simplex.coord_vertex hm] at hbneg
    split at hbneg <;> linarith
  have hs : 0 < s := by
    have := hσ.height_pos b hb hbσ
    rw [height, ← hbs, LinearMap.neg_apply, mul_neg, ← neg_mul] at this
    nlinarith
  have hτ := hσ.simplex.exchange hk hbneg.ne
  have hplane : plane a σ w + s • (-coord a σ k) = plane a (insert b (σ.erase k)) w := by
    refine hτ.eq_plane fun i hi => ?_
    rcases Finset.mem_insert.mp hi with rfl | hi
    · simp only [LinearMap.add_apply, LinearMap.smul_apply, smul_eq_mul]
      linarith
    · simp [hσ.simplex.plane_vertex (Finset.mem_of_mem_erase hi),
        hσ.simplex.coord_other (Finset.mem_of_mem_erase hi) (Finset.ne_of_mem_erase hi)]
  refine ⟨_, .of_plane_le hτ (Finset.insert_subset hb ((Finset.erase_subset _ _).trans hσ.subset))
    fun j hj => hplane ▸ hle j hj, ?_⟩
  rw [← hplane]
  simp only [LinearMap.add_apply, LinearMap.smul_apply, LinearMap.neg_apply, smul_eq_mul]
  nlinarith

theorem exists_inCone (hspan : Submodule.span K (a '' I) = ⊤) {φ : E →ₗ[K] K}
    (hφ : ∀ i ∈ I, 0 < φ (a i)) (hw : ∀ σ, IsLower a I w σ → IsStrict a I w σ)
    (hx : InHull K a I x) : ∃ σ, IsLower a I w σ ∧ InCone K a σ x := by
  classical
  obtain ⟨σ₀, hσ₀⟩ := exists_isLower hspan hφ w
  obtain ⟨σ, hσ, hmax⟩ := Finset.exists_max_image (I.powerset.filter fun σ => IsLower a I w σ)
    (fun σ => plane a σ w x) ⟨σ₀, by simpa using ⟨hσ₀.subset, hσ₀⟩⟩
  have hlow := (Finset.mem_filter.mp hσ).2
  refine ⟨σ, hlow, fun k hk => not_lt.mp fun hneg => ?_⟩
  obtain ⟨τ, hτ, hlt⟩ := (hw σ hlow).exists_higher hx hk hneg
  exact absurd (hmax τ (by simpa using ⟨hτ.subset, hτ⟩)) (not_le.mpr hlt)

theorem inHull_vertex {j : ι} (hj : j ∈ I) : InHull K a I (a j) := fun _ _ _ _ _ hk => hk j hj

theorem InHull.add {y : E} (hx : InHull K a I x) (hy : InHull K a I y) : InHull K a I (x + y) := by
  intro σ hσ hs k hk hpos
  rw [map_add]
  exact add_nonneg (hx σ hσ hs k hk hpos) (hy σ hσ hs k hk hpos)

theorem InHull.smul {s : K} (hs : 0 ≤ s) (hx : InHull K a I x) : InHull K a I (s • x) := by
  intro σ hσ hsim k hk hpos
  rw [map_smul, smul_eq_mul]
  exact mul_nonneg hs (hx σ hσ hsim k hk hpos)

theorem inHull_sum (hσ : σ ⊆ I) : InHull K a I (∑ k ∈ σ, a k) := by
  intro τ _ _ k _ hpos
  rw [map_sum]
  exact Finset.sum_nonneg fun i hi => hpos i (hσ hi)

theorem IsSimplex.height_congr (h : IsSimplex K a σ) (hσ : σ ⊆ I) (hwv : ∀ i ∈ I, w i = v i)
    {j : ι} (hj : j ∈ I) : height a σ j w = height a σ j v := by
  rw [height, height, hwv j hj,
    h.eq_plane (w := v) fun i hi => (h.plane_vertex hi).trans (hwv i (hσ hi))]

theorem IsLower.congr (h : IsLower a I w σ) (hwv : ∀ i ∈ I, w i = v i) : IsLower a I v σ :=
  ⟨h.simplex, h.subset, fun j hj => h.simplex.height_congr h.subset hwv hj ▸ h.height_nonneg j hj⟩

theorem Induces.congr (h : Induces a I w T) (hwv : ∀ i ∈ I, w i = v i) : Induces a I v T where
  mem σ hσ := h.mem σ (hσ.congr fun i hi => (hwv i hi).symm)
  strict σ hσ := by
    have hs := h.strict σ hσ
    refine ⟨hs.toIsLower.congr hwv, fun j hj hjσ => ?_⟩
    exact hs.simplex.height_congr hs.subset hwv hj ▸ hs.height_pos j hj hjσ

theorem Induces.isLower_iff (h : Induces a I w T) : IsLower a I w σ ↔ σ ∈ T :=
  ⟨h.mem σ, fun hσ => (h.strict σ hσ).toIsLower⟩

theorem Induces.exists_mem (h : Induces a I w T) (hspan : Submodule.span K (a '' I) = ⊤)
    {φ : E →ₗ[K] K} (hφ : ∀ i ∈ I, 0 < φ (a i)) (hx : InHull K a I x) :
    ∃ σ ∈ T, InCone K a σ x := by
  obtain ⟨σ, hσ, hc⟩ := exists_inCone hspan hφ (fun σ hσ => h.strict σ (h.mem σ hσ)) hx
  exact ⟨σ, h.mem σ hσ, hc⟩

/-! ## Linear heights -/

theorem IsSimplex.height_apply (h : IsSimplex K a σ) (f : E →ₗ[K] K) (j : ι) :
    height a σ j (fun i => f (a i)) = 0 := by
  rw [height, ← h.eq_plane fun i _ => rfl, sub_self]

theorem IsSimplex.height_tilt (h : IsSimplex K a σ) (f : E →ₗ[K] K) (s : K) (w : ι → K) (j : ι) :
    height a σ j ((fun i => f (a i)) + s • w) = s * height a σ j w := by
  rw [h.height_add_smul, h.height_apply, zero_add]

section Tilt

variable (f : E →ₗ[K] K) {s : K} (hs : 0 < s)

include hs

theorem isLower_tilt_iff : IsLower a I ((fun i => f (a i)) + s • w) σ ↔ IsLower a I w σ := by
  constructor <;> intro h <;> refine ⟨h.simplex, h.subset, fun j hj => ?_⟩
  · have := h.height_nonneg j hj
    rw [h.simplex.height_tilt] at this
    exact nonneg_of_mul_nonneg_right this hs
  · rw [h.simplex.height_tilt]
    exact mul_nonneg hs.le (h.height_nonneg j hj)

theorem isStrict_tilt_iff : IsStrict a I ((fun i => f (a i)) + s • w) σ ↔ IsStrict a I w σ := by
  constructor
  · intro h
    refine ⟨(isLower_tilt_iff f hs).mp h.toIsLower, fun j hj hjσ => ?_⟩
    have := h.height_pos j hj hjσ
    rw [h.simplex.height_tilt] at this
    exact pos_of_mul_pos_right this hs.le
  · intro h
    refine ⟨(isLower_tilt_iff f hs).mpr h.toIsLower, fun j hj hjσ => ?_⟩
    rw [h.simplex.height_tilt]
    exact mul_pos hs (h.height_pos j hj hjσ)

theorem induces_tilt_iff : Induces a I ((fun i => f (a i)) + s • w) T ↔ Induces a I w T := by
  constructor
  · intro h
    exact ⟨fun σ hσ => h.mem σ ((isLower_tilt_iff f hs).mpr hσ),
      fun σ hσ => (isStrict_tilt_iff f hs).mp (h.strict σ hσ)⟩
  · intro h
    exact ⟨fun σ hσ => h.mem σ ((isLower_tilt_iff f hs).mp hσ),
      fun σ hσ => (isStrict_tilt_iff f hs).mpr (h.strict σ hσ)⟩

end Tilt

end Orthant.Lifting
