import Mathlib
import Orthant.Validation
import Orthant.Proofs.EquationSystem.Homotopy
import Orthant.Proofs.Polytope.Sublist
import Orthant.Proofs.Polytope.Weights
import Orthant.Proofs.Separation.Scan

/-! # What validation gives

The negative exponents of a valid support lie in the interior of its Newton polytope, so they are no
vertices and the positive exponents alone have the same hull. That is what the search for separating
cells and the balance points ask for.
-/

namespace Orthant

namespace Support

variable {K : Type} [Exact K] {s : Support K} {p : Polytope} {facets : Polytope.FacetProgram}

theorem checkNegatives_eq_ok {interior bs : List (List ℤ)} {q : Polytope}
    (h : checkNegatives p interior bs = .ok q) : ∀ b ∈ bs, b ∈ interior := by
  induction bs with
  | nil => simp
  | cons b bs ih =>
    rw [checkNegatives] at h
    split at h
    case isTrue hb =>
      exact List.forall_mem_cons.mpr ⟨List.contains_iff_mem.mp hb, ih h⟩
    case isFalse => cases h

/-- A valid support is checked, has negative terms, and their exponents are interior points. -/
theorem validate_eq_ok (h : (s.validate facets).2 = .ok p) :
    s.checked = .ok s ∧ s.negativeExponents ≠ [] ∧ ∃ fs, s.newton.facets facets = .ok fs ∧
      ∀ b ∈ s.negativeExponents, b ∈ s.newton.interiorPoints fs := by
  rw [validate] at h
  split at h
  · cases h
  cases hs : s.checked with
  | error e => simp [hs] at h
  | ok s' =>
    obtain rfl := checked_eq_ok hs
    simp only [hs, validateIn] at h
    split at h
    · cases h
    case isFalse hne =>
      cases hfs : s'.newton.facets facets with
      | error e => simp [hfs] at h
      | ok fs =>
        simp only [hfs] at h
        exact ⟨rfl, by simpa using hne, fs, rfl, checkNegatives_eq_ok h⟩

theorem map_fst_zip_sublist {α β : Type} (l : List α) (r : List β) :
    ((l.zip r).map Prod.fst).Sublist l := by
  induction l generalizing r with
  | nil => simp
  | cons a l ih =>
    cases r with
    | nil => simp
    | cons b r => exact (ih r).cons_cons a

theorem positive_sublist (s : Support K) : s.positiveExponents.Sublist s.exponents :=
  (List.filter_sublist.map _).trans (map_fst_zip_sublist _ _)

theorem mem_positive_or_negative (hs : s.checked = .ok s) (hne : s.negativeExponents ≠ [])
    {a : List ℤ} (ha : a ∈ s.exponents) : a ∈ s.positiveExponents ∨ a ∈ s.negativeExponents := by
  have hlength : s.coefficients.length = s.exponents.length := by
    have hcoeff : s.coefficients ≠ [] := by
      intro h
      simp [negativeExponents, negativeTerms, terms, h] at hne
    rw [checked] at hs
    split at hs
    · cases hs
    split at hs
    · cases hs
    case isFalse h => simpa [hcoeff] using h
  obtain ⟨i, hi, rfl⟩ := List.mem_iff_getElem.mp ha
  have hmem : (s.exponents[i], s.coefficients[i]) ∈ s.terms :=
    List.mem_iff_getElem.mpr ⟨i, by simp [terms, hlength, hi], by simp [terms]⟩
  cases hsign : s.coefficients[i].isNegative with
  | false =>
    exact .inl (List.mem_map.mpr ⟨_, List.mem_filter.mpr ⟨hmem, by simp [hsign]⟩, rfl⟩)
  | true => exact .inr (List.mem_map.mpr ⟨_, List.mem_filter.mpr ⟨hmem, by simp [hsign]⟩, rfl⟩)

section Valid

variable (hs : s.IsLattice) (hv : (s.validate facets).2 = .ok p)
  (hcomplete : s.newton.FacetsComplete facets)

include hs hv hcomplete

theorem mem_interior_of_validate {b : List ℤ} (hb : b ∈ s.negativeExponents) :
    realPoint s.dimension b ∈ interior (convexHull ℝ (pointSet s.dimension s.exponents)) := by
  obtain ⟨-, -, fs, hfs, hinterior⟩ := validate_eq_ok hv
  have hmem := mem_exponents_of_mem_negative hb
  exact Polytope.mem_interior_of_strictlyInside hfs hcomplete hmem (hs.length b hmem)
    (Polytope.mem_interiorPoints.mp (hinterior b hb)).2

theorem convexHull_positive : convexHull ℝ (pointSet s.dimension s.positiveExponents) =
    convexHull ℝ (pointSet s.dimension s.exponents) := by
  obtain ⟨hchecked, hne, fs, hfs, -⟩ := validate_eq_ok hv
  have hn := (Polytope.isFull_of_facets hfs).2
  have : Nonempty (Fin s.dimension) := ⟨⟨0, hn⟩⟩
  refine convexHull_eq_of_interior (pointSet_finite _ _) ?_ ?_
  · rintro _ ⟨a, ha, rfl⟩
    exact ⟨a, (positive_sublist s).subset ha, rfl⟩
  · rintro _ ⟨a, ha, rfl⟩ hnot
    rcases mem_positive_or_negative hchecked hne ha with ha | ha
    · exact absurd ⟨a, ha, rfl⟩ hnot
    · exact mem_interior_of_validate hs hv hcomplete ha

omit hcomplete in
theorem isWord_neg_of_validate {b : List ℤ} (hb : b ∈ s.negativeExponents) :
    ∀ k < s.dimension, isWord (-(b.getD k 0)) = true := by
  intro k hk
  obtain ⟨hchecked, hne, fs, hfs, hinterior⟩ := validate_eq_ok hv
  have hmem := mem_exponents_of_mem_negative hb
  have hlt := (Polytope.lt_of_mem_interiorPoints (hinterior b hb) hk).1
  have hcoords : s.newton.coordinates k ≠ [] := by
    simp [Polytope.coordinates, newton, Polytope.ofPoints, List.ne_nil_of_mem hmem]
  obtain ⟨a, ha, hmin⟩ := List.mem_map.mp (Polytope.minimum_mem hcoords)
  have hkb : k < b.length := (hs.length b hmem).symm ▸ hk
  have hka : k < a.length := (hs.length a ha).symm ▸ hk
  have hwb := isWord_iff.mp (hs.word b hmem (b.getD k 0) (by simp [hkb]))
  have hwa := isWord_iff.mp (hs.word a ha (a.getD k 0) (by simp [hka]))
  have hlt : a.getD k 0 < b.getD k 0 := hmin ▸ hlt
  rw [isWord_iff]
  simp only [wordMin, wordMax] at *
  omega

end Valid

/-- A valid support is one that the later steps take, if the proposed sets find the facets of its
exponents and of the positive ones. Its positive exponents have the hull of all exponents, so the test
for nonseparability always comes to its search, every negative exponent has a balance point, and the
homotopy fails at most because one cannot differentiate by a variable. The differences are words
whenever no exponent is negative. -/
theorem applicable_of_validate [Add K] [Mul K] (hs : s.IsLattice)
    (hdiff : ∀ a ∈ s.positiveExponents, ∀ a' ∈ s.positiveExponents, ∀ r,
      isWord (a'.getD r 0 - a.getD r 0) = true)
    (hv : (s.validate facets).2 = .ok p)
    (hfacets : s.dimension ≠ 1 → ∀ points ∈ [s.exponents, s.positiveExponents],
      Polytope.FindsFacets s.dimension points (facets s.dimension points))
    (hcomplete : ∀ points ∈ [s.exponents, s.positiveExponents],
      (Polytope.ofPoints s.dimension points).FacetsComplete facets)
    {program : Balance.Program} (hprogram : ∀ b ∈ s.negativeExponents,
      program.SolvesAt (Balance.matrixOf s.positiveExponents b)) :
    convexHull ℝ (pointSet s.dimension s.positiveExponents) =
        convexHull ℝ (pointSet s.dimension s.exponents) ∧
      (∀ cfg clock programs coordinates,
        Separation.isNonseparable cfg clock s.dimension s.positiveExponents s.negativeExponents
            programs coordinates facets =
          Separation.searchCells cfg clock s.dimension s.positiveExponents s.negativeExponents
            programs coordinates facets ∧
        Separation.isNonseparableSupport cfg clock s programs coordinates facets =
          Separation.searchCells cfg clock s.dimension s.positiveExponents s.negativeExponents
            programs coordinates facets) ∧
      (∀ b ∈ s.negativeExponents, ∀ entries, ∃ w,
        Balance.point (Balance.matrixOf s.positiveExponents b) entries program = .ok w) ∧
      ∃ w, Homotopy.build s program =
        if s.isSmooth then .ok (Homotopy.ofWeights s w) else fail .value := by
  obtain ⟨hchecked, hne, fs, hfs, hinterior⟩ := validate_eq_ok hv
  have hcomplete₀ : s.newton.FacetsComplete facets := hcomplete _ (by simp)
  have hhull := convexHull_positive hs hv hcomplete₀
  have hlen : ∀ a ∈ s.positiveExponents, a.length = s.dimension := fun a ha =>
    hs.length a (mem_exponents_of_mem_positive ha)
  have hint : ∀ b ∈ s.negativeExponents, realPoint s.dimension b ∈
      interior (convexHull ℝ (pointSet s.dimension s.positiveExponents)) := fun b hb =>
    hhull ▸ mem_interior_of_validate hs hv hcomplete₀ hb
  obtain ⟨b, rest, hneg⟩ := List.exists_cons_of_ne_nil hne
  have hspan : affineSpan ℝ (pointSet s.dimension s.positiveExponents) = ⊤ :=
    interior_convexHull_nonempty_iff_affineSpan_eq_top.mp ⟨_, hint b (by simp [hneg])⟩
  have hfull := (Polytope.isFull_iff_affineSpan hlen hdiff).mpr hspan
  obtain ⟨fs', hfs', hsub⟩ := Polytope.facets_of_sublist (positive_sublist s) hs.length
    (fun q hq => hhull ▸ realPoint_mem_convexHull hq) hspan hfull
    (fun h1 => hfacets h1 _ (by simp)) (fun h1 => hfacets h1 _ (by simp)) hfs hcomplete₀
    (hcomplete _ (by simp))
  have hinside : ∀ b ∈ s.negativeExponents, strictlyInside fs' b = true := fun b hb =>
    List.all_eq_true.mpr fun f hf => List.all_eq_true.mp
      (Polytope.mem_interiorPoints.mp (hinterior b hb)).2 f (hsub f hf)
  have hpos : s.positiveExponents.isEmpty = false := by
    rw [List.isEmpty_eq_false_iff]
    exact ne_nil_of_affineSpan hspan
  have hpoint : ∀ b ∈ s.negativeExponents, ∀ entries, ∃ w,
      Balance.point (Balance.matrixOf s.positiveExponents b) entries program = .ok w :=
    fun b hb entries => Balance.point_returns hlen
      (hs.length b (mem_exponents_of_mem_negative hb))
      (isWord_neg_of_validate hs hv hb) (hint b hb) (hprogram b hb) entries
  refine ⟨hhull, fun cfg clock programs coordinates => ?_, hpoint, ?_⟩
  · simp only [Separation.isNonseparableSupport, hchecked, hpos]
    have hsearch : Separation.isNonseparable cfg clock s.dimension s.positiveExponents
          s.negativeExponents programs coordinates facets =
        Separation.searchCells cfg clock s.dimension s.positiveExponents s.negativeExponents
          programs coordinates facets :=
      Separation.isNonseparable_eq_searchCells hfull hfs' hinside
    exact ⟨hsearch, hsearch⟩
  · obtain ⟨w, hw⟩ := hpoint b (by simp [hneg]) (b.map Homotopy.wordText)
    refine ⟨w, ?_⟩
    simp [Homotopy.build, hchecked, hneg, Homotopy.balanceWeights, hw, bind, Except.bind]

theorem facets_cubic : Homotopy.cubic.newton.facets =
    .ok [⟨[1, 1], 3⟩, ⟨[0, -1], 0⟩, ⟨[-1, 0], 0⟩] := by cbv

theorem validate_of_cubic (hnewton : s.newton = Homotopy.cubic.newton) (hchecked : s.checked = .ok s)
    (hneg : s.negativeExponents = [[1, 1]]) : s.validate.2 = .ok Homotopy.cubic.newton := by
  have hfull : Homotopy.cubic.newton.isFull = true := by decide_cbv
  have hinside : [1, 1] ∈ Homotopy.cubic.newton.interiorPoints
      [⟨[1, 1], 3⟩, ⟨[0, -1], 0⟩, ⟨[-1, 0], 0⟩] := by decide_cbv
  simp [validate, validateIn, checkNegatives, hnewton, hfull, hchecked, hneg, facets_cubic, hinside]

theorem validate_cubic : Homotopy.cubic.validate.2 = .ok Homotopy.cubic.newton :=
  validate_of_cubic rfl rfl (by decide)

theorem validate_rootCubic : Homotopy.rootCubic.validate.2 = .ok Homotopy.cubic.newton := by
  refine validate_of_cubic rfl rfl ?_
  rw [negativeExponents, Homotopy.negativeTerms_rootCubic]
  rfl

theorem affineSpan_cubic : ∀ points ∈ [Homotopy.cubic.exponents, Homotopy.cubic.positiveExponents],
    affineSpan ℝ (pointSet 2 points) = ⊤ := by
  have hfull : ∀ (points : List (List ℤ)) (σ : Cell), (∀ q ∈ points, q.length = 2) →
      σ ∈ (⟨points, 2, []⟩ : Configuration).simplices →
      ((⟨points, 2, []⟩ : Configuration).inverse σ).isSome = true →
        affineSpan ℝ (pointSet 2 points) = ⊤ := by
    intro points σ hlen hσ hinv
    obtain ⟨inverse, hinv⟩ := Option.isSome_iff_exists.mp hinv
    exact (Configuration.isFull_iff_affineSpan (c := ⟨points, 2, []⟩) hlen).mp
      (Configuration.isFull_of_inverse hlen hσ hinv)
  intro points hpoints
  rcases List.mem_pair.mp hpoints with rfl | rfl
  · exact hfull _ [0, 2, 3] (by decide) (by decide) (by decide_cbv)
  · exact hfull _ [0, 1, 2] (by decide) (by decide) (by decide_cbv)

theorem facetsComplete_cubic : Homotopy.cubic.newton.FacetsComplete := by
  refine Polytope.facetsComplete_of_words (affineSpan_cubic _ List.mem_cons_self) rfl (by decide) ?_
  intro fs hfs
  obtain rfl := Except.ok.inj (facets_cubic.symm.trans hfs)
  decide_cbv

theorem solvesAt_cubic :
    Balance.Program.exact.SolvesAt (Balance.matrixOf [[3, 0], [0, 3], [0, 0]] [1, 1]) := by
  have hm : Balance.matrixOf [[3, 0], [0, 3], [0, 0]] [1, 1] =
      [[1, 1, 1, -1], [3, 0, 0, -1], [0, 3, 0, -1]] := by decide
  rw [hm]
  refine Balance.Program.solvesAt_exact (y := [1, 1, 1, 3]) (by decide_cbv) ⟨rfl, by simp, ?_⟩
  norm_num

theorem applicable_of_validate_cubic : Homotopy.cubic.validate.2 = .ok Homotopy.cubic.newton ∧
    convexHull ℝ (pointSet 2 [[3, 0], [0, 3], [0, 0]]) =
      convexHull ℝ (pointSet 2 Homotopy.cubic.exponents) ∧
    (∀ cfg clock, Separation.isNonseparableSupport cfg clock Homotopy.cubic =
      Separation.searchCells cfg clock 2 [[3, 0], [0, 3], [0, 0]] [[1, 1]]) ∧
    ∃ w, Homotopy.build Homotopy.cubic = .ok (Homotopy.ofWeights Homotopy.cubic w) := by
  have hlen : ∀ points ∈ [Homotopy.cubic.exponents, Homotopy.cubic.positiveExponents],
      ∀ q ∈ points, q.length = 2 := by decide
  have hfacets := fun points hpoints => Polytope.findsFacets_facetSimplices two_pos
    (hlen points hpoints) (affineSpan_cubic points hpoints)
  have hfound : (Polytope.ofPoints 2 Homotopy.cubic.positiveExponents).facets =
      .ok [⟨[1, 1], 3⟩, ⟨[0, -1], 0⟩, ⟨[-1, 0], 0⟩] := by cbv
  have hcomplete : ∀ points ∈ [Homotopy.cubic.exponents, Homotopy.cubic.positiveExponents],
      (Polytope.ofPoints 2 points).FacetsComplete := by
    intro points hpoints
    rcases List.mem_pair.mp hpoints with rfl | rfl
    · exact facetsComplete_cubic
    · refine Polytope.facetsComplete_of_words (affineSpan_cubic _ hpoints) rfl (by decide) ?_
      intro fs hfs
      obtain rfl := Except.ok.inj (hfound.symm.trans hfs)
      decide_cbv
  have hlattice : Homotopy.cubic.IsLattice := ⟨by decide, by decide⟩
  have hprogram : ∀ b ∈ Homotopy.cubic.negativeExponents,
      Balance.Program.exact.SolvesAt (Balance.matrixOf Homotopy.cubic.positiveExponents b) := by
    intro b hb
    obtain rfl : b = [1, 1] := List.mem_singleton.mp hb
    exact solvesAt_cubic
  have hcoord : ∀ a ∈ Homotopy.cubic.positiveExponents, ∀ x ∈ a, 0 ≤ x ∧ isWord x = true := by
    decide
  obtain ⟨hhull, hsearch, -, hbuild⟩ := applicable_of_validate hlattice
    (fun a ha a' ha' => isWord_getD_sub (hcoord a ha) (hcoord a' ha')) validate_cubic
    (fun _ => hfacets) hcomplete hprogram
  exact ⟨validate_cubic, hhull, fun cfg clock => (hsearch cfg clock _ _).2, hbuild⟩

end Support

end Orthant
