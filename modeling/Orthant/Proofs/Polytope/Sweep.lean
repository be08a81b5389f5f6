import Mathlib
import Orthant.Proofs.Polytope.Representation
import Orthant.Proofs.Validation

/-! # The sweep and the membership test

The sweep leaves out the extreme values of each coordinate, where there are only boundary points. So
it lists the lattice points that the membership test accepts, each once, and validation rejects a
negative exponent when that test does.
-/

namespace Orthant

open Finset

namespace Polytope

open Orthant.Configuration

variable {n : ℕ} {points : List (List ℤ)} {program : FacetProgram} {fs : List Facet} {b : List ℤ}

/-! ## The bounding box -/

theorem mem_Icc_of_mem_convexHull {x : Fin n → ℝ} (hx : x ∈ convexHull ℝ (pointSet n points))
    (r : Fin n) : x r ∈ Set.Icc ((minimum ((ofPoints n points).coordinates r) : ℤ) : ℝ)
      (maximum ((ofPoints n points).coordinates r) : ℤ) := by
  refine convexHull_min (fun y hy => ?_)
    ((convex_Icc _ _).linear_preimage (LinearMap.proj (R := ℝ) (φ := fun _ : Fin n => ℝ) r)) hx
  obtain ⟨q, hq, rfl⟩ := hy
  have hmem : q.getD r 0 ∈ (ofPoints n points).coordinates r := List.mem_map.mpr ⟨q, hq, rfl⟩
  constructor
  · exact Int.cast_le.mpr ((foldl_min_le _ _).2 _ hmem)
  · exact Int.cast_le.mpr ((le_foldl_max _ _).2 _ hmem)

theorem mem_Ioo_of_mem_interior {x : Fin n → ℝ}
    (hx : x ∈ interior (convexHull ℝ (pointSet n points))) (r : Fin n) :
    x r ∈ Set.Ioo ((minimum ((ofPoints n points).coordinates r) : ℤ) : ℝ)
      (maximum ((ofPoints n points).coordinates r) : ℤ) := by
  obtain ⟨ε, hε, hup⟩ := exists_step_of_mem_interior hx (Pi.single r 1)
  obtain ⟨δ, hδ, hdown⟩ := exists_step_of_mem_interior hx (Pi.single r (-1))
  have hup := (mem_Icc_of_mem_convexHull hup r).2
  have hdown := (mem_Icc_of_mem_convexHull hdown r).1
  simp only [Pi.add_apply, Pi.smul_apply, Pi.single_eq_same, smul_eq_mul] at hup hdown
  constructor <;> linarith

theorem mem_interiorPoints_of_mem_interior (hlen : b.length = n)
    (hb : realPoint n b ∈ interior (convexHull ℝ (pointSet n points)))
    (hin : strictlyInside fs b = true) : b ∈ (ofPoints n points).interiorPoints fs := by
  refine mem_interiorPoints.mpr ⟨List.forall₂_iff_get.mpr ⟨?_, fun r h₁ h₂ => ?_⟩, hin⟩
  · simp [sides, ofPoints, hlen]
  · have hr : r < n := hlen ▸ h₁
    have hval : realPoint n b ⟨r, hr⟩ = (b[r] : ℤ) := by simp [realPoint, h₁]
    obtain ⟨hlo, hhi⟩ := mem_Ioo_of_mem_interior hb ⟨r, hr⟩
    rw [hval, Int.cast_lt] at hlo hhi
    simpa [sides, ofPoints] using ⟨hlo, hhi⟩

theorem isWord_of_mem_interiorPoints (hlen : ∀ q ∈ points, q.length = n) (hne : points ≠ [])
    (hword : ∀ q ∈ points, ∀ x ∈ q, isWord x = true)
    (hb : b ∈ (ofPoints n points).interiorPoints fs) :
    b.length = n ∧ ∀ x ∈ b, isWord x = true := by
  have hbn : b.length = n := by
    simpa [sides, ofPoints] using (mem_interiorPoints.mp hb).1.length_eq
  refine ⟨hbn, fun x hx => ?_⟩
  obtain ⟨r, hr, rfl⟩ := List.mem_iff_getElem.mp hx
  obtain ⟨hlo, hhi⟩ := lt_of_mem_interiorPoints hb (r := r) (by simpa [ofPoints, ← hbn] using hr)
  rw [List.getD_eq_getElem _ _ hr] at hlo hhi
  have hne : (ofPoints n points).coordinates r ≠ [] := by simpa [coordinates, ofPoints] using hne
  have hattained : ∀ y ∈ (ofPoints n points).coordinates r, isWord y = true := by
    intro y hy
    obtain ⟨q, hq, rfl⟩ := List.mem_map.mp hy
    have hrq : r < q.length := by rw [hlen q hq, ← hbn]; exact hr
    exact hword q hq _ (by simp [hrq])
  have h₁ := isWord_iff.mp (hattained _ (minimum_mem hne))
  have h₂ := isWord_iff.mp (hattained _ (maximum_mem hne))
  exact isWord_iff.mpr ⟨h₁.1.trans hlo.le, hhi.le.trans h₂.2⟩

/-- A point at which all facets that were found hold strictly is in the interior. Wherever it is on the
boundary one of them holds with equality, which no wrapping hides, as offsets are words. -/
theorem mem_interior_of_facets (hlen : ∀ q ∈ points, q.length = n)
    (hspan : affineSpan ℝ (pointSet n points) = ⊤)
    (hprogram : n ≠ 1 → FindsFacets n points (program n points))
    (hfs : (ofPoints n points).facets program = .ok fs) (hb : b ∈ points)
    (hin : strictlyInside fs b = true) :
    realPoint n b ∈ interior (convexHull ℝ (pointSet n points)) := by
  let c : Configuration := ⟨points, n, fs⟩
  have hc : c.IsFull := (Configuration.isFull_iff_affineSpan hlen).mpr hspan
  obtain ⟨j, hj, rfl⟩ := List.mem_iff_getElem.mp hb
  have hat : c.pointAt j = points[j] := List.getD_eq_getElem _ _ hj
  have hraise : raise (realPoint n points[j]) = c.vector ℝ j := by rw [vector_eq_raise, hat]
  refine mem_interior_of_bounding (c := c) hc fun s k hbound => ?_
  rw [hraise]
  refine lt_of_le_of_ne (hbound.nonneg j (mem_placeSet.mpr hj)) fun hzero => ?_
  obtain ⟨f, hf, hvanish⟩ := hc.hasFacets_of_findsFacets hprogram hfs s k hbound
  have hform := hbound.simplex.eq_smul_coord (f := f.form n ℝ)
    (fun i hi hik => (form_vector_eq_zero_iff hc f ℝ (mem_placeSet.mp (hbound.subset hi))).mpr
      (hvanish i hi hik)) (c.vector ℝ j) hbound.mem
  rw [← hzero, mul_zero] at hform
  have he := (form_vector_eq_zero_iff hc f ℝ hj).mp hform
  have hlt : dotWord f.normal points[j] < f.offset :=
    of_decide_eq_true (List.all_eq_true.mp hin f hf)
  rw [dotWord, ← hat, he, wrap_of_isWord (Facet.stored_iff.mp (stored_of_mem_facets hfs hf)).2]
    at hlt
  exact lt_irrefl _ hlt

/-! ## Agreement -/

/-- The products of the facets with a lattice point, as the membership test takes them, are those of
the integers. -/
def ExactAt (fs : List Facet) (b : List ℤ) : Prop :=
  ∀ g, (Value.list (b.map .ofInt)).castGrid = .ok g →
    ∀ f ∈ fs, dotWord f.normal g.entries = dotInt f.normal b

theorem exactAt_of_words (hne : b ≠ []) (hb : ∀ x ∈ b, isWord x = true)
    (hprod : ∀ f ∈ fs, isWord (dotInt f.normal b) = true) : ExactAt fs b := by
  intro g hg f hf
  obtain rfl := Except.ok.inj ((castGrid_ofInts hb hne).symm.trans hg)
  exact wrap_of_isWord (hprod f hf)

section Agreement

variable (hn : 1 ≤ n) (hlen : ∀ q ∈ points, q.length = n)
  (hword : ∀ q ∈ points, ∀ x ∈ q, isWord x = true)
  (hspan : affineSpan ℝ (pointSet n points) = ⊤)

include hn hlen hword hspan

theorem isInterior_of_mem_interiorPoints (hb : b ∈ (ofPoints n points).interiorPoints fs) :
    (ofPoints n points).isInterior (.ok fs) (.list (b.map .ofInt)) = .ok true := by
  obtain ⟨hbn, hbw⟩ :=
    isWord_of_mem_interiorPoints hlen (ne_nil_of_affineSpan hspan) hword hb
  rw [isInterior_point (p := ofPoints n points) hbn hbw hn, (mem_interiorPoints.mp hb).2]

theorem mem_interiorPoints_iff_isInterior (hsup : Supported ⟨points, n, fs⟩)
    (hfacets : HasFacets ⟨points, n, fs⟩) (hexact : ExactAt fs b) :
    b ∈ (ofPoints n points).interiorPoints fs ↔
      (ofPoints n points).isInterior (.ok fs) (.list (b.map .ofInt)) = .ok true := by
  refine ⟨isInterior_of_mem_interiorPoints hn hlen hword hspan, fun h => ?_⟩
  obtain ⟨hbn, g, hg, hlt⟩ := isInterior_eq_true h
  have hprod : ∀ f ∈ fs, isWord (dotInt f.normal b) = true := fun f hf =>
    hexact g hg f hf ▸ isWord_wrap _
  have hin : strictlyInside fs b = true := List.all_eq_true.mpr fun f hf => by
    rw [decide_eq_true_iff, dotWord, wrap_of_isWord (hprod f hf), ← hexact g hg f hf]
    exact hlt f hf
  have hc : IsFull ⟨points, n, fs⟩ := (Configuration.isFull_iff_affineSpan hlen).mpr hspan
  exact mem_interiorPoints_of_mem_interior hbn
    ((strictlyInside_iff hc hsup hfacets hbn hprod).mp hin) hin

end Agreement

end Polytope

namespace Support

variable {K : Type} [Exact K] {s : Support K} {p : Polytope} {fs : List Facet}
  {interior : List (List ℤ)}

theorem checkNegatives_cases (bs : List (List ℤ)) :
    (checkNegatives p interior bs = .ok p ∧ ∀ b ∈ bs, b ∈ interior) ∨
      ∃ before b after, bs = before ++ b :: after ∧ (∀ a ∈ before, a ∈ interior) ∧
        b ∉ interior ∧ checkNegatives p interior bs = .error (.negativeNotInterior b) := by
  induction bs with
  | nil => exact .inl ⟨rfl, by simp⟩
  | cons a bs ih =>
    rw [checkNegatives]
    by_cases ha : a ∈ interior
    · rw [if_pos (List.contains_iff_mem.mpr ha)]
      rcases ih with ⟨hok, hall⟩ | ⟨before, b, after, rfl, hall, hb, herror⟩
      · exact .inl ⟨hok, List.forall_mem_cons.mpr ⟨ha, hall⟩⟩
      · exact .inr ⟨a :: before, b, after, rfl, List.forall_mem_cons.mpr ⟨ha, hall⟩, hb, herror⟩
    · rw [if_neg fun h => ha (List.contains_iff_mem.mp h)]
      exact .inr ⟨[], a, bs, rfl, by simp, ha, rfl⟩

theorem validate_eq_checkNegatives {facets : Polytope.FacetProgram} (hchecked : s.checked = .ok s)
    (hneg : s.negativeExponents ≠ []) (hfs : s.newton.facets facets = .ok fs) :
    (s.validate facets).2 =
      checkNegatives s.newton (s.newton.interiorPoints fs) s.negativeExponents := by
  have hfull : s.newton.isFull = true := (Polytope.isFull_of_facets hfs).1
  have hempty : s.negativeExponents.isEmpty = false := List.isEmpty_eq_false_iff.mpr hneg
  simp [validate, validateIn, hfull, hchecked, hempty, hfs]

end Support

namespace Polytope

open Orthant.Configuration

variable {n : ℕ} {points : List (List ℤ)} {program : FacetProgram}

/-- The interior lattice points of points that span their space are those that the membership test
accepts, each once and in rising lexicographic order, if the proposed sets find the facets and no
product wraps. A support with these exponents is rejected for its first negative exponent that the
test rejects, and taken if there is none. -/
theorem interiorPoints_eq_accepted (hn : 1 ≤ n) (hlen : ∀ q ∈ points, q.length = n)
    (hword : ∀ q ∈ points, ∀ x ∈ q, isWord x = true)
    (hspan : affineSpan ℝ (pointSet n points) = ⊤)
    (hprogram : n ≠ 1 → FindsFacets n points (program n points))
    (hfit : (ofPoints n points).ProductsFit program) :
    ∃ fs, (ofPoints n points).facets program = .ok fs ∧
      ((ofPoints n points).interiorPoints fs).Pairwise (· < ·) ∧
      (∀ b, ExactAt fs b → (b ∈ (ofPoints n points).interiorPoints fs ↔
        (ofPoints n points).isInterior ((ofPoints n points).facets program)
          (.list (b.map .ofInt)) = .ok true)) ∧
      ∀ (K : Type) [Exact K] (s : Support K), s.newton = ofPoints n points → s.checked = .ok s →
        s.negativeExponents ≠ [] →
        ((s.validate program).2 = .ok s.newton ∧ ∀ b ∈ s.negativeExponents,
          (ofPoints n points).isInterior ((ofPoints n points).facets program)
            (.list (b.map .ofInt)) = .ok true) ∨
        ∃ before b after, s.negativeExponents = before ++ b :: after ∧
          (∀ a ∈ before, (ofPoints n points).isInterior ((ofPoints n points).facets program)
            (.list (a.map .ofInt)) = .ok true) ∧
          (ofPoints n points).isInterior ((ofPoints n points).facets program)
            (.list (b.map .ofInt)) = .ok false ∧
          (s.validate program).2 = .error (.negativeNotInterior b) := by
  obtain ⟨fs, hfs, -, hsides, hfacets⟩ := facets_returns hlen hspan hfit hn hprogram
  have hfits := fits_of_mem_facets hfit hfs
  have hagree := fun {b} => mem_interiorPoints_iff_isInterior (b := b) hn hlen hword hspan
    (fun f hf => (hsides f hf).supports) hfacets
  rw [hfs]
  refine ⟨fs, rfl, pairwise_sweep _ _, fun b => hagree, fun K _ s hs hchecked hneg => ?_⟩
  have hpoint : ∀ b ∈ s.negativeExponents, b ∈ points := fun b hb => by
    have hpoints : s.exponents = points := congrArg Polytope.points hs
    exact hpoints ▸ Support.mem_exponents_of_mem_negative hb
  have hexact : ∀ b ∈ points, ExactAt fs b := fun b hb =>
    exactAt_of_words (List.ne_nil_of_length_pos (hlen b hb ▸ hn)) (hword b hb)
      fun f hf => (hfits f hf).product b hb
  have hmem : ∀ b ∈ points, (b ∈ (ofPoints n points).interiorPoints fs ↔
      (ofPoints n points).isInterior (.ok fs) (.list (b.map .ofInt)) = .ok true) := fun b hb =>
    hagree (hexact b hb)
  rw [Support.validate_eq_checkNegatives hchecked hneg (hs ▸ hfs), hs]
  rcases Support.checkNegatives_cases s.negativeExponents with
    ⟨hok, hall⟩ | ⟨before, b, after, hsplit, hall, hb, herror⟩
  · exact .inl ⟨hok, fun b hb => (hmem b (hpoint b hb)).mp (hall b hb)⟩
  · have hbefore : ∀ a ∈ before, a ∈ points := fun a ha => hpoint a (by simp [hsplit, ha])
    have hbp : b ∈ points := hpoint b (by simp [hsplit])
    refine .inr ⟨before, b, after, hsplit,
      fun a ha => (hmem a (hbefore a ha)).mp (hall a ha), ?_, herror⟩
    have htest : (ofPoints n points).isInterior (.ok fs) (.list (b.map .ofInt)) =
        .ok (strictlyInside fs b) := isInterior_point (hlen b hbp) (hword b hbp) hn
    rw [hmem b hbp, htest] at hb
    rw [htest]
    exact congrArg _ (by simpa using hb)

theorem interiorPoints_eq_accepted_cubic :
    affineSpan ℝ (pointSet 2 Homotopy.cubic.exponents) = ⊤ ∧
      (ofPoints 2 Homotopy.cubic.exponents).ProductsFit facetSimplices ∧
      ∃ fs, Homotopy.cubic.newton.facets = .ok fs ∧
        (Homotopy.cubic.newton.interiorPoints fs).Pairwise (· < ·) ∧
        (∀ b, ExactAt fs b → (b ∈ Homotopy.cubic.newton.interiorPoints fs ↔
          Homotopy.cubic.newton.isInterior Homotopy.cubic.newton.facets
            (.list (b.map .ofInt)) = .ok true)) ∧
        ∀ b ∈ Homotopy.cubic.negativeExponents, Homotopy.cubic.newton.isInterior
          Homotopy.cubic.newton.facets (.list (b.map .ofInt)) = .ok true := by
  have hlen : ∀ q ∈ Homotopy.cubic.exponents, q.length = 2 := by decide
  have hspan := Support.affineSpan_cubic Homotopy.cubic.exponents (by simp)
  have hfit : (ofPoints 2 Homotopy.cubic.exponents).ProductsFit facetSimplices := by
    decide +kernel
  obtain ⟨fs, hfs, hpairwise, hagree, hvalidate⟩ := interiorPoints_eq_accepted (by decide) hlen
    (by decide) hspan
    (fun _ => findsFacets_facetSimplices two_pos hlen hspan) hfit
  refine ⟨hspan, hfit, fs, hfs, hpairwise, hagree, ?_⟩
  rcases hvalidate ℚ Homotopy.cubic rfl rfl (by decide) with ⟨-, hall⟩ | ⟨_, _, _, -, -, -, herror⟩
  · exact hall
  · rw [Support.validate_cubic] at herror
    cases herror

end Polytope

end Orthant
