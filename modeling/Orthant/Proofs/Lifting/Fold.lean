import Orthant.Proofs.Lifting.Envelope

/-! # Local convexity

Heights are locally convex on a set of simplices when they fold upwards across every ridge and every
vector that is not a vertex lies above a simplex that contains it. Local convexity decides which
triangulation the heights induce. Strict simplices that leave no ridge inside the hull open are all
of the triangulation.
-/

set_option linter.unusedSectionVars false

open Filter Topology

namespace Orthant.Lifting

variable {K E ι : Type*} [Field K] [LinearOrder K] [IsStrictOrderedRing K]
  [AddCommGroup E] [Module K E] [FiniteDimensional K E] [DecidableEq ι]

/-- The heights fold upwards across all ridges and leave all other vectors above. -/
structure LocallyConvex (a : ι → E) (I : Finset ι) (w : ι → K) (T : Set (Finset ι)) : Prop where
  ridge : ∀ σ ∈ T, ∀ k ∈ σ, ∀ b ∉ σ, insert b (σ.erase k) ∈ T → 0 < height a σ b w
  unused : ∀ j ∈ I, (∀ τ ∈ T, j ∉ τ) → ∃ σ ∈ T, InCone K a σ (a j) ∧ 0 < height a σ j w

variable {a : ι → E} {I σ τ : Finset ι} {w v : ι → K} {x : E} {T : Set (Finset ι)}

theorem IsSimplex.plane_exchange (hσ : IsSimplex K a σ) {k b : ι} (hk : k ∈ σ)
    (hτ : IsSimplex K a (insert b (σ.erase k))) (w : ι → K) (x : E) :
    plane a (insert b (σ.erase k)) w x - plane a σ w x =
      (plane a (insert b (σ.erase k)) w (a k) - w k) * coord a σ k x := by
  have := hσ.eq_smul_coord (f := plane a (insert b (σ.erase k)) w - plane a σ w) (k := k)
    (fun i hi hik => by
      rw [LinearMap.sub_apply, hσ.plane_vertex hi,
        hτ.plane_vertex (Finset.mem_insert_of_mem (Finset.mem_erase.mpr ⟨hik, hi⟩)), sub_self])
    x hk
  simpa [hσ.plane_vertex hk] using this

theorem IsSimplex.height_exchange (hσ : IsSimplex K a σ) {k b : ι} (hk : k ∈ σ)
    (hτ : IsSimplex K a (insert b (σ.erase k))) (w : ι → K) :
    height a (insert b (σ.erase k)) k w * coord a σ k (a b) = -height a σ b w := by
  have := hσ.plane_exchange hk hτ w (a b)
  rw [hτ.plane_vertex (Finset.mem_insert_self _ _)] at this
  rw [height, height]
  linarith

/-- The vertices off a common ridge lie on its two sides. -/
theorem IsStrict.coord_neg (hσ : IsStrict a I w σ) {k b : ι} (hk : k ∈ σ) (hb : b ∉ σ)
    (hτ : IsLower a I w (insert b (σ.erase k))) : coord (K := K) a σ k (a b) < 0 := by
  have hpos := hσ.height_pos b (hτ.subset (Finset.mem_insert_self _ _)) hb
  have he := hσ.simplex.height_exchange hk hτ.simplex w
  have hnn := hτ.height_nonneg k (hσ.subset hk)
  nlinarith

theorem IsStrict.eq_of_ridge (hσ : IsStrict a I w σ) {k b c : ι} (hk : k ∈ σ) (hb : b ∉ σ)
    (hc : c ∉ σ) (hτ : IsStrict a I w (insert b (σ.erase k)))
    (hυ : IsLower a I w (insert c (σ.erase k))) : b = c := by
  by_contra hbc
  have hcb : c ∉ insert b (σ.erase k) := by
    simp [Ne.symm hbc, hc]
  have herase : (insert b (σ.erase k)).erase b = σ.erase k :=
    Finset.erase_insert fun hm => hb (Finset.mem_of_mem_erase hm)
  have h₁ := hσ.coord_neg hk hb hτ.toIsLower
  have h₂ := hσ.coord_neg hk hc hυ
  have h₃ := hτ.coord_neg (Finset.mem_insert_self _ _) hcb (by rwa [herase])
  have he := hτ.simplex.eq_smul_coord (f := coord a σ k) (k := b) (fun i hi hib => by
    have hi' := (Finset.mem_insert.mp hi).resolve_left hib
    exact hσ.simplex.coord_other (Finset.mem_of_mem_erase hi') (Finset.ne_of_mem_erase hi'))
    (a c) (Finset.mem_insert_self _ _)
  nlinarith

/-- Strict simplices of which every ridge is shared or lies on a facet are all lower simplices. -/
theorem induces_of_ridges (hfin : T.Finite) (hne : T.Nonempty) (hT : ∀ σ ∈ T, IsStrict a I w σ)
    (hridge : ∀ σ ∈ T, ∀ k ∈ σ, (∃ b ∉ σ, insert b (σ.erase k) ∈ T) ∨
      ∀ j ∈ I, 0 ≤ coord (K := K) a σ k (a j)) : Induces a I w T := by
  refine ⟨fun σ' hσ' => ?_, hT⟩
  obtain ⟨τ, hτ, hmax⟩ := hfin.exists_maximalFor (fun τ => plane a τ w (∑ i ∈ σ', a i)) T hne
  have hcone : InCone K a τ (∑ i ∈ σ', a i) := by
    intro k hk
    by_contra hneg
    rw [not_le] at hneg
    rcases hridge τ hτ k hk with ⟨b, hb, hυ⟩ | hfacet
    · have hc := (hT τ hτ).coord_neg hk hb (hT _ hυ).toIsLower
      have hplane := (hT τ hτ).simplex.plane_exchange hk (hT _ hυ).simplex w
      have hb' := hplane (a b)
      have hpos := (hT τ hτ).height_pos b ((hT _ hυ).subset (Finset.mem_insert_self _ _)) hb
      rw [(hT _ hυ).simplex.plane_vertex (Finset.mem_insert_self _ _), ← height] at hb'
      have hlow : plane a (insert b (τ.erase k)) w (a k) - w k < 0 := by
        by_contra hge
        nlinarith
      have hup := hplane (∑ i ∈ σ', a i)
      have hgt := mul_pos_of_neg_of_neg hlow hneg
      have hle := hmax hυ (by linarith)
      linarith
    · rw [map_sum] at hneg
      exact absurd (Finset.sum_nonneg fun i hi => hfacet i (hσ'.subset hi)) (not_le.mpr hneg)
  rw [(hT τ hτ).eq_of_inCone_sum hσ' hcone]
  exact hτ

section Small

variable [TopologicalSpace K] [OrderTopology K]

theorem eventually_add_mul_pos {α : K} (h : 0 < α) (β : K) :
    ∀ᶠ ε in 𝓝[>] (0 : K), 0 < α + ε * β := by
  have hd : 0 < α / (|β| + 1) := by positivity
  filter_upwards [Ioo_mem_nhdsGT hd] with ε hε
  have h₁ := (lt_div_iff₀ (by positivity)).mp hε.2
  have h₂ : -(ε * |β|) ≤ ε * β := by
    rw [← mul_neg]; exact mul_le_mul_of_nonneg_left (neg_abs_le β) hε.1.le
  have h₃ := hε.1
  nlinarith

theorem nonneg_of_frequently {α β : K} (h : ∃ᶠ ε in 𝓝[>] (0 : K), 0 ≤ α + ε * β) : 0 ≤ α := by
  by_contra hn
  refine h ((eventually_add_mul_pos (neg_pos.mpr (not_le.mp hn)) (-β)).mono fun ε hε => ?_)
  rw [not_le]
  linarith

theorem eventually_pos : ∀ᶠ ε in 𝓝[>] (0 : K), 0 < ε := self_mem_nhdsWithin

end Small

theorem exists_first_zero {P : Type*} (S : Finset P) {α β : P → K} (hα : ∀ p ∈ S, 0 < α p)
    (hβ : ∃ p ∈ S, β p ≤ 0) :
    ∃ s : K, 0 < s ∧ s ≤ 1 ∧ (∀ p ∈ S, 0 ≤ α p + s * (β p - α p)) ∧
      ∃ p ∈ S, α p + s * (β p - α p) = 0 := by
  obtain ⟨p, hp, hmin⟩ := Finset.exists_min_image (S.filter fun p => β p ≤ 0)
    (fun p => α p / (α p - β p)) (by
      obtain ⟨p, hp, hle⟩ := hβ
      exact ⟨p, Finset.mem_filter.mpr ⟨hp, hle⟩⟩)
  obtain ⟨hpS, hpβ⟩ := Finset.mem_filter.mp hp
  have hden : ∀ q ∈ S, β q ≤ 0 → 0 < α q - β q := fun q hq hle => by linarith [hα q hq]
  have hs : 0 < α p / (α p - β p) := div_pos (hα p hpS) (hden p hpS hpβ)
  have hs1 : α p / (α p - β p) ≤ 1 := (div_le_one (hden p hpS hpβ)).mpr (by linarith)
  refine ⟨_, hs, hs1, fun q hq => ?_, p, hpS, ?_⟩
  · by_cases hle : β q ≤ 0
    · have := (le_div_iff₀ (hden q hq hle)).mp (hmin q (Finset.mem_filter.mpr ⟨hq, hle⟩))
      linarith
    · have hq' := hα q hq
      nlinarith [not_le.mp hle]
  · have := div_mul_cancel₀ (α p) (hden p hpS hpβ).ne'
    linarith

theorem Induces.finite (h : Induces a I v T) : T.Finite :=
  I.powerset.finite_toSet.subset fun τ hτ => by simpa using (h.strict τ hτ).subset

/-- On the way from heights that induce a triangulation all simplices stay lower until one of them
meets another vector, if they are not strict at the end. -/
theorem Induces.exists_first_met (h : Induces a I v T) (hno : ¬ ∀ σ ∈ T, IsStrict a I w σ) :
    ∃ s : K, 0 < s ∧ s ≤ 1 ∧ (∀ σ ∈ T, IsLower a I (v + s • (w - v)) σ) ∧
      ∃ σ ∈ T, ∃ j ∈ I, j ∉ σ ∧ height a σ j (v + s • (w - v)) = 0 := by
  classical
  have hsim : ∀ σ ∈ T, IsSimplex K a σ := fun σ hσ => (h.strict σ hσ).simplex
  let S : Finset (Finset ι × ι) := (I.powerset ×ˢ I).filter fun p => p.1 ∈ T ∧ p.2 ∉ p.1
  have hS : ∀ p : Finset ι × ι, p ∈ S ↔ p.1 ∈ T ∧ p.2 ∈ I ∧ p.2 ∉ p.1 := by
    intro p
    simp only [S, Finset.mem_filter, Finset.mem_product, Finset.mem_powerset]
    exact ⟨fun hp => ⟨hp.2.1, hp.1.2, hp.2.2⟩,
      fun hp => ⟨⟨(h.strict _ hp.1).subset, hp.2.1⟩, hp.1, hp.2.2⟩⟩
  obtain ⟨s, hs0, hs1, hnonneg, ⟨σ, j⟩, hp, hzero⟩ := exists_first_zero S
    (α := fun p => height a p.1 p.2 v) (β := fun p => height a p.1 p.2 w)
    (fun p hp => (h.strict _ ((hS p).mp hp).1).height_pos _ ((hS p).mp hp).2.1
      ((hS p).mp hp).2.2) (by
      by_contra hpos
      push Not at hpos
      exact hno fun σ hσ => (hsim σ hσ).isStrict (h.strict σ hσ).subset fun j hj hjσ =>
        hpos (σ, j) ((hS _).mpr ⟨hσ, hj, hjσ⟩))
  obtain ⟨hσ, hj, hjσ⟩ := (hS _).mp hp
  refine ⟨s, hs0, hs1, fun τ hτ => (hsim τ hτ).isLower (h.strict τ hτ).subset fun i hi hiτ => ?_,
    σ, hσ, j, hj, hjσ, ?_⟩
  · rw [(hsim τ hτ).height_segment]
    exact hnonneg (τ, i) ((hS _).mpr ⟨hτ, hi, hiτ⟩)
  · rw [(hsim σ hσ).height_segment]
    exact hzero

/-- On the way from heights that induce a triangulation to locally convex ones all are locally
convex. -/
theorem LocallyConvex.segment (hc : LocallyConvex a I w T) (h : Induces a I v T) {s : K}
    (hs0 : 0 < s) (hs1 : s ≤ 1) : LocallyConvex a I (v + s • (w - v)) T := by
  have hmix : ∀ {x y : K}, 0 < x → 0 < y → 0 < x + s * (y - x) := by
    intro x y hx hy
    nlinarith
  refine ⟨fun τ hτ k hk b hb hυ => ?_, fun j hj hun => ?_⟩
  · rw [(h.strict τ hτ).simplex.height_segment]
    exact hmix ((h.strict τ hτ).height_pos b ((h.strict _ hυ).subset
      (Finset.mem_insert_self _ _)) hb) (hc.ridge τ hτ k hk b hb hυ)
  · obtain ⟨τ, hτ, hin, hpos⟩ := hc.unused j hj hun
    refine ⟨τ, hτ, hin, ?_⟩
    rw [(h.strict τ hτ).simplex.height_segment]
    exact hmix ((h.strict τ hτ).height_pos j hj (hun τ hτ)) hpos

variable [TopologicalSpace K] [OrderTopology K]

section Triangulation

variable (hspan : Submodule.span K (a '' I) = ⊤) {φ : E →ₗ[K] K} (hφ : ∀ i ∈ I, 0 < φ (a i))

include hspan hφ

theorem Induces.exists_frequently_inCone (h : Induces a I v T) {y : E} (hx : InHull K a I x)
    (hy : InHull K a I y) :
    ∃ τ ∈ T, ∃ᶠ ε in 𝓝[>] (0 : K), 0 < ε ∧ InCone K a τ (x + ε • y) := by
  by_contra hno
  push Not at hno
  have hall : ∀ᶠ ε in 𝓝[>] (0 : K), ∀ τ ∈ T, 0 < ε → ¬ InCone K a τ (x + ε • y) :=
    (eventually_all_finite h.finite).mpr fun τ hτ => by simpa using hno τ hτ
  obtain ⟨ε, hε, hpos⟩ := (hall.and eventually_pos).exists
  obtain ⟨τ, hτ, hc⟩ := h.exists_mem hspan hφ (hx.add (hy.smul hpos.le))
  exact hε τ hτ hpos hc

/-- Behind a ridge beyond which there are vectors lies another simplex of the triangulation, which
reaches towards them. -/
theorem Induces.exists_behind (h : Induces a I v T) (hσ : σ ∈ T) {j k : ι} (hk : k ∈ σ)
    (hj : j ∈ I) (hneg : coord (K := K) a σ k (a j) < 0) :
    ∃ b ∉ σ, insert b (σ.erase k) ∈ T ∧ ∃ ε : K, 0 < ε ∧
      InCone K a (insert b (σ.erase k)) (∑ i ∈ σ.erase k, a i + ε • a j) := by
  have hs := h.strict σ hσ
  obtain ⟨τ, hτ, hfreq⟩ := h.exists_frequently_inCone hspan hφ
    (inHull_sum ((Finset.erase_subset k σ).trans hs.subset)) (inHull_vertex hj)
  have hlimit : InCone K a τ (∑ i ∈ σ.erase k, a i) := fun i hi =>
    nonneg_of_frequently (hfreq.mono fun ε hε => by simpa using hε.2 i hi)
  have hcoord : ∀ i ∈ σ, coord (K := K) a σ i (∑ i ∈ σ.erase k, a i) = if i = k then 0 else 1 :=
    fun i hi => by simpa using hs.simplex.coord_sum_erase_add hi k (0 : K) 0
  have hsub : σ.erase k ⊆ τ := fun i hi => by
    refine (h.strict τ hτ).mem_of_coord_pos hs.toIsLower (fun l hl => ?_) hlimit
      (Finset.mem_of_mem_erase hi) ?_
    · rw [hcoord l hl]; split <;> simp
    · rw [hcoord i (Finset.mem_of_mem_erase hi), if_neg (Finset.ne_of_mem_erase hi)]
      exact one_pos
  obtain ⟨b, hb, rfl⟩ := hs.simplex.eq_insert (h.strict τ hτ).simplex hk hsub
  obtain ⟨ε, hε, hc⟩ := hfreq.exists
  refine ⟨b, fun hbσ => ?_, hτ, ε, hε, hc⟩
  obtain rfl : b = k := by
    by_contra hbk
    exact hb (Finset.mem_erase.mpr ⟨hbk, hbσ⟩)
  rw [Finset.insert_erase hk] at hc
  have hback := hc b hk
  rw [hs.simplex.coord_sum_erase_add hk, if_pos rfl, zero_add] at hback
  exact absurd hback (not_le.mpr (mul_neg_of_pos_of_neg hε hneg))

theorem Induces.strict_of_lower (h : Induces a I v T) (hlow : ∀ σ ∈ T, IsLower a I w σ)
    (hc : LocallyConvex a I w T) : ∀ σ ∈ T, IsStrict a I w σ := by
  refine fun σ hσ => ⟨hlow σ hσ, fun j hj hjσ => ?_⟩
  refine lt_of_le_of_ne ((hlow σ hσ).height_nonneg j hj) fun hzero => ?_
  have hs := (hlow σ hσ).simplex
  by_cases hin : InCone K a σ (a j)
  · have hun : ∀ τ ∈ T, j ∉ τ := fun τ hτ hjτ =>
      hjσ ((h.strict σ hσ).mem_of_coord_pos (h.strict τ hτ).toIsLower
        (inCone_vertex (h.strict τ hτ).simplex hjτ) hin hjτ
        (by rw [(h.strict τ hτ).simplex.coord_self hjτ]; exact one_pos))
    obtain ⟨τ, hτ, hjτ, hpos⟩ := hc.unused j hj hun
    rw [height, (hlow σ hσ).plane_eq (hlow τ hτ) hin hjτ, ← height, ← hzero] at hpos
    exact lt_irrefl _ hpos
  · -- Otherwise it lies beyond a ridge, and the simplex behind that ridge has the same plane.
    unfold InCone at hin
    push Not at hin
    obtain ⟨k, hk, hneg⟩ := hin
    obtain ⟨b, hb, hτ, ε, hε, hcone⟩ := h.exists_behind hspan hφ hσ hk hj hneg
    have hridge : ∀ i ∈ σ.erase k, plane a (insert b (σ.erase k)) w (a i) = plane a σ w (a i) :=
      fun i hi => by
        rw [(hlow _ hτ).simplex.plane_vertex (Finset.mem_insert_of_mem hi),
          hs.plane_vertex (Finset.mem_of_mem_erase hi)]
    have hle := (hlow _ hτ).plane_le_plane (hlow σ hσ) hcone
    rw [map_add, map_add, map_sum, map_sum, Finset.sum_congr rfl hridge, map_smul, map_smul,
      smul_eq_mul, smul_eq_mul, add_le_add_iff_left, mul_le_mul_iff_right₀ hε] at hle
    have hj' : plane a (insert b (σ.erase k)) w (a j) - plane a σ w (a j) = 0 := by
      have := (hlow _ hτ).plane_le hj
      rw [height] at hzero
      linarith
    have hb' := hs.plane_exchange hk (hlow _ hτ).simplex w (a b)
    rw [hs.plane_exchange hk (hlow _ hτ).simplex w] at hj'
    rw [(mul_eq_zero.mp hj').resolve_right hneg.ne, zero_mul,
      (hlow _ hτ).simplex.plane_vertex (Finset.mem_insert_self _ _), ← height] at hb'
    exact (hc.ridge σ hσ k hk b hb hτ).ne' hb'

theorem Induces.of_locallyConvex (h : Induces a I v T) (hc : LocallyConvex a I w T) :
    Induces a I w T := by
  have hT : ∀ σ ∈ T, IsStrict a I w σ := by
    by_contra hno
    obtain ⟨s, hs0, hs1, hlow, σ, hσ, j, hj, hjσ, hzero⟩ := h.exists_first_met hno
    -- At the first vector that is met the heights are still locally convex.
    have hstrict := h.strict_of_lower hspan hφ hlow (hc.segment h hs0 hs1) σ hσ
    exact (hstrict.height_pos j hj hjσ).ne' hzero
  refine ⟨fun τ hτ => ?_, hT⟩
  obtain ⟨σ, hσ, hcone⟩ := h.exists_mem hspan hφ (inHull_sum hτ.subset)
  rw [(hT σ hσ).eq_of_inCone_sum hτ hcone]
  exact hσ

end Triangulation

end Orthant.Lifting
