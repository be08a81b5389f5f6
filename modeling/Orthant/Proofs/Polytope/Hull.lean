import Mathlib
import Orthant.Proofs.Polytope.Dimension
import Orthant.Proofs.Polytope.Interior

/-! # Hulls and complete facets

Facets are complete when the hull of the points is exactly where all of them hold. Then a point of a
polytope that passes the test for strict inequalities lies in the interior, even when products wrap.
A point in the interior is a positive combination of all points, and it is not needed to span the
hull.
-/

namespace Orthant

open Finset

variable {n : ℕ}

/-! ## Points in the interior -/

theorem pointSet_finite (n : ℕ) (points : List (List ℤ)) : (pointSet n points).Finite := by
  refine (points.toFinset.finite_toSet.image (realPoint n)).subset ?_
  rintro _ ⟨p, hp, rfl⟩
  exact ⟨p, by simpa using hp, rfl⟩

theorem range_getElem {α β : Type*} (l : List α) (f : α → β) :
    Set.range (fun j : Fin l.length => f l[j]) = { x | ∃ a ∈ l, f a = x } := by
  ext x
  constructor
  · rintro ⟨j, rfl⟩
    exact ⟨_, List.getElem_mem _, rfl⟩
  · rintro ⟨a, ha, rfl⟩
    obtain ⟨j, hj, rfl⟩ := List.mem_iff_getElem.mp ha
    exact ⟨⟨j, hj⟩, rfl⟩

theorem sum_realPoint_eq_dotInt (u : List ℤ) {q : List ℤ} (hq : q.length = n) :
    ∑ r : Fin n, ((u.getD r 0 : ℤ) : ℝ) * realPoint n q r = dotInt u q := by
  rw [dotInt_eq_sum hq]
  push_cast
  rfl

theorem realPoint_mem_convexHull {points : List (List ℤ)} {p : List ℤ} (hp : p ∈ points) :
    realPoint n p ∈ convexHull ℝ (pointSet n points) :=
  subset_convexHull ℝ _ ⟨p, hp, rfl⟩

theorem convexHull_eq_of_interior [Nonempty (Fin n)] {S T : Set (Fin n → ℝ)} (hS : S.Finite)
    (hTS : T ⊆ S) (h : ∀ x ∈ S, x ∉ T → x ∈ interior (convexHull ℝ S)) :
    convexHull ℝ T = convexHull ℝ S := by
  refine (convexHull_mono hTS).antisymm ?_
  rw [← closure_convexHull_extremePoints (hS.isCompact_convexHull ℝ) (convex_convexHull ℝ S)]
  refine closure_minimal (convexHull_mono fun x hx => ?_) ((hS.subset hTS).isClosed_convexHull ℝ)
  by_contra hxT
  exact (disjoint_interior_extremePoints (convexHull ℝ S)).le_bot
    ⟨h x (extremePoints_convexHull_subset hx) hxT, hx⟩

theorem exists_weights {m : ℕ} {p : Fin m → Fin n → ℝ} {x : Fin n → ℝ}
    (hx : x ∈ convexHull ℝ (Set.range p)) :
    ∃ w : Fin m → ℝ, (∀ i, 0 ≤ w i) ∧ ∑ i, w i = 1 ∧ ∑ i, w i • p i = x := by
  rw [convexHull_range_eq_exists_affineCombination] at hx
  obtain ⟨s, w, hw, hone, rfl⟩ := hx
  refine ⟨fun i => if i ∈ s then w i else 0, fun i => ?_, ?_, ?_⟩
  · dsimp only
    split
    case isTrue hi => exact hw i hi
    case isFalse => exact le_rfl
  · simpa [sum_ite_mem] using hone
  · rw [affineCombination_eq_linear_combination _ _ _ hone]
    simp [ite_smul, sum_ite_mem]

theorem exists_pos_weights {m : ℕ} {p : Fin m → Fin n → ℝ} {x : Fin n → ℝ}
    (hx : x ∈ interior (convexHull ℝ (Set.range p))) :
    ∃ w : Fin m → ℝ, (∀ i, 0 < w i) ∧ ∑ i, w i = 1 ∧ ∑ i, w i • p i = x := by
  have hne : (Set.range p).Nonempty := convexHull_nonempty_iff.mp ⟨x, interior_subset hx⟩
  have hm : 0 < m := by
    obtain ⟨_, i, -⟩ := hne
    exact i.pos
  let c : Fin n → ℝ := ∑ i, (1 / m : ℝ) • p i
  obtain ⟨ε, hε, hmem⟩ := exists_step_of_mem_interior hx (x - c)
  obtain ⟨w, hw, hone, hsum⟩ := exists_weights hmem
  have hm' : (m : ℝ) ≠ 0 := by exact_mod_cast hm.ne'
  refine ⟨fun i => (1 + ε)⁻¹ * (w i + ε * (1 / m)), fun i => ?_, ?_, ?_⟩
  · have := hw i
    positivity
  · rw [← mul_sum, sum_add_distrib, hone, ← mul_sum]
    simp only [sum_const, card_univ, Fintype.card_fin, nsmul_eq_mul]
    field_simp
  · have hmix : ∑ i, (w i + ε * (1 / m)) • p i = (1 + ε) • x := by
      calc ∑ i, (w i + ε * (1 / m)) • p i = ∑ i, w i • p i + ε • c := by
            simp only [add_smul, sum_add_distrib, c, smul_sum, smul_smul]
        _ = (1 + ε) • x := by
            rw [hsum, smul_sub, add_smul, one_smul]
            abel
    simp only [mul_smul, ← smul_sum]
    rw [hmix, smul_smul, inv_mul_cancel₀ (by positivity), one_smul]

/-- A combination of points that span their space lies in the interior of their hull, if all weights
are positive. -/
theorem mem_interior_of_pos_weights {m : ℕ} {p : Fin m → Fin n → ℝ} {w : Fin m → ℝ}
    (hspan : affineSpan ℝ (Set.range p) = ⊤) (hw : ∀ i, 0 < w i) (hone : ∑ i, w i = 1) :
    ∑ i, w i • p i ∈ interior (convexHull ℝ (Set.range p)) := by
  set x := ∑ i, w i • p i with hx
  obtain ⟨c, hc⟩ := interior_convexHull_nonempty_iff_affineSpan_eq_top.mpr hspan
  by_contra hmem
  -- A form that has its greatest value at the combination is constant on the points.
  obtain ⟨f, hf⟩ := geometric_hahn_banach_open_point (convex_convexHull ℝ _).interior
    isOpen_interior hmem
  have hle : ∀ i, f (p i) ≤ f x := by
    intro i
    have hclosure : p i ∈ closure (interior (convexHull ℝ (Set.range p))) := by
      rw [(convex_convexHull ℝ _).closure_interior_eq_closure_of_nonempty_interior ⟨c, hc⟩]
      exact subset_closure (subset_convexHull ℝ _ ⟨i, rfl⟩)
    exact closure_minimal (fun y hy => (hf y hy).le)
      (isClosed_le f.continuous continuous_const) hclosure
  have hzero : ∑ i, w i * (f x - f (p i)) = 0 := by
    have hfx : f x = ∑ i, w i * f (p i) := by simp [hx]
    simp only [mul_sub, sum_sub_distrib]
    rw [← sum_mul, hone, ← hfx, one_mul, sub_self]
  have heq : ∀ i, f (p i) = f x := by
    intro i
    have hi := (sum_eq_zero_iff_of_nonneg fun i _ =>
      mul_nonneg (hw i).le (sub_nonneg.mpr (hle i))).mp hzero i (mem_univ i)
    exact (sub_eq_zero.mp ((mul_eq_zero.mp hi).resolve_left (hw i).ne')).symm
  have hconst : convexHull ℝ (Set.range p) ⊆ { y | f y = f x } :=
    convexHull_min (Set.range_subset_iff.mpr heq)
      (convex_hyperplane f.toLinearMap.isLinear (f x))
  exact (hf c hc).ne (hconst (interior_subset hc))

/-! ## Complete facets -/

namespace Polytope

/-- The facets that were found are complete: the hull is where all of them hold. -/
def FacetsComplete (p : Polytope) (program : FacetProgram := facetSimplices) : Prop :=
  ∀ fs, p.facets program = .ok fs → ∀ x : Fin p.ambient → ℝ,
    x ∈ convexHull ℝ (pointSet p.ambient p.points) ↔
      ∀ f ∈ fs, ∑ r : Fin p.ambient, ((f.normal.getD r 0 : ℤ) : ℝ) * x r ≤ f.offset

variable {p : Polytope} {fs : List Facet}

theorem facetsComplete_of_words (hspan : affineSpan ℝ (pointSet p.ambient p.points) = ⊤)
    (hdim : p.dim = affineDimension p.points) (hlen : ∀ q ∈ p.points, q.length = p.ambient)
    (hfit : ∀ fs, p.facets = .ok fs → ∀ f ∈ fs, ∀ q ∈ p.points,
      isWord (dotInt f.normal q) = true) : p.FacetsComplete := by
  intro fs h x
  obtain ⟨points, n, dim⟩ := p
  obtain rfl : dim = affineDimension points := hdim
  let c : Configuration := ⟨points, n, fs⟩
  have hc : c.IsFull := (Configuration.isFull_iff_affineSpan hlen).mpr hspan
  have hsup : c.Supported :=
    supports_of_mem_facets h (fun _ _ => lt_of_mem_facetSimplices) hlen (hfit fs h)
  constructor
  · intro hx f hf
    have := Configuration.form_nonneg_of_mem_convexHull hc (hsup f hf) hx
    rwa [Configuration.form_raise, sub_nonneg] at this
  · intro hx
    refine Configuration.mem_convexHull_of_form_nonneg hc hsup (hc.hasFacets h) fun f hf => ?_
    rw [Configuration.form_raise, sub_nonneg]
    exact hx f hf

/-- A point of the polytope at which the products, taken as words, are below all offsets lies in the
interior. A product that is not a word cannot hide an equality, since offsets are words. -/
theorem mem_interior_of_strictlyInside {program : FacetProgram} (h : p.facets program = .ok fs)
    (hcomplete : p.FacetsComplete program) {b : List ℤ} (hb : b ∈ p.points)
    (hlen : b.length = p.ambient) (hs : strictlyInside fs b) :
    realPoint p.ambient b ∈ interior (convexHull ℝ (pointSet p.ambient p.points)) := by
  have hcomplete := hcomplete fs h
  have hlt : ∀ f ∈ fs, 0 < f.form p.ambient ℝ (raise (realPoint p.ambient b)) := by
    intro f hf
    have hle := (hcomplete _).mp (realPoint_mem_convexHull hb) f hf
    rw [Configuration.form_raise, sub_pos]
    rw [sum_realPoint_eq_dotInt _ hlen] at hle ⊢
    refine lt_of_le_of_ne hle fun he => ?_
    have hstrict : dotWord f.normal b < f.offset :=
      of_decide_eq_true (List.all_eq_true.mp hs f hf)
    rw [dotWord, Int.cast_injective he,
      wrap_of_isWord (Facet.stored_iff.mp (stored_of_mem_facets h hf)).2] at hstrict
    exact lt_irrefl _ hstrict
  refine mem_interior.mpr ⟨_, fun y hy => ?_, Configuration.isOpen_forms_pos fs, hlt⟩
  refine (hcomplete y).mpr fun f hf => ?_
  have hpos := hy f hf
  rw [Configuration.form_raise, sub_pos] at hpos
  exact hpos.le

end Polytope

end Orthant
