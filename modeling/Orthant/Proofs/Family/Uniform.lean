import Mathlib
import Orthant.Proofs.Family.Rows
import Orthant.Proofs.Family.Weights
import Orthant.Proofs.Polytope.Sweep
import Orthant.Proofs.Separation.Single

/-! # All members are handled alike

A member is valid exactly if its degree is above the number of variables. Then its positive exponents have
a single triangulation, it is nonseparable, and the weights of its homotopy are those of the product in
the corners.
-/

namespace Orthant

variable {n : ℕ} {d : ℤ}

namespace Support.IsSimplicial

variable {s : Support} (h : s.IsSimplicial n d) (hn : 1 ≤ n) (hword : isWord d = true)

include h

theorem newton_eq : s.newton = Polytope.ofPoints n s.exponents := by rw [newton, h.dimension]

theorem ones_mem : ones n ∈ s.exponents :=
  mem_exponents_of_mem_negative (by rw [h.negative]; exact List.mem_singleton_self _)

include hn hword

theorem validate_iff (hd : 1 ≤ d) {facets : Polytope.FacetProgram}
    (hfacets : n ≠ 1 → Polytope.FindsFacets n s.exponents (facets n s.exponents)) :
    (∃ p, (s.validate facets).2 = .ok p) ↔ (n : ℤ) < d := by
  have hlen := h.hasCorners.length
  have hspan := h.hasCorners.affineSpan_eq_top (show d ≠ 0 by omega)
  constructor
  · rintro ⟨p, hp⟩
    obtain ⟨-, -, fs, hfs, hinterior⟩ := validate_eq_ok hp
    rw [h.newton_eq] at hfs hinterior
    have hin := (Polytope.mem_interiorPoints.mp (hinterior (ones n) (by simp [h.negative]))).2
    by_contra hdn
    exact h.hasCorners.ones_notMem_interior hn (not_lt.mp hdn)
      (Polytope.mem_interior_of_facets hlen hspan hfacets hfs h.ones_mem hin)
  · intro hdn
    obtain ⟨fs, hfs, -, hin⟩ := h.hasCorners.exists_facets hn hdn hfacets hword
    have hmem : ones n ∈ (Polytope.ofPoints n s.exponents).interiorPoints fs :=
      Polytope.mem_interiorPoints_of_mem_interior (length_ones n)
        (h.hasCorners.ones_mem_interior hdn) hin
    refine ⟨s.newton, ?_⟩
    rw [validate_eq_checkNegatives h.checked (by simp [h.negative]) (h.newton_eq ▸ hfs), h.negative,
      checkNegatives, h.newton_eq, if_pos (List.contains_iff_mem.mpr hmem), checkNegatives]

end Support.IsSimplicial

/-! ## The corners -/

section Corners

variable (hn : 1 ≤ n) (hd : (n : ℤ) < d)

include hn hd

section Search

variable (hword : isWord d = true) {facets : Polytope.FacetProgram}
  (hfacets : n ≠ 1 → Polytope.FindsFacets n (corners n d) (facets n (corners n d)))

include hword hfacets

theorem exists_configuration : ∃ c : Configuration, c.points = corners n d ∧ n = c.dim ∧
    c.size = c.dim + 1 ∧ c.IsFull ∧ c.Supported ∧
      (Polytope.ofPoints c.dim c.points).facets facets = .ok c.facets ∧
      strictlyInside c.facets (ones n) = true := by
  have hcorners : HasCorners n d (corners n d) := hasCorners_corners (by omega)
  obtain ⟨fs, hfs, hfits, hin⟩ := hcorners.exists_facets hn hd hfacets hword
  have hc : (⟨corners n d, n, fs⟩ : Configuration).IsFull :=
    (Configuration.isFull_iff_affineSpan hcorners.length).mpr
      (hcorners.affineSpan_eq_top (by omega))
  refine ⟨⟨corners n d, n, fs⟩, rfl, rfl, length_corners n d, hc, ?_, hfs, hin⟩
  exact hc.supported (fun h1 => (hfacets h1).lt)
    (fun f hf q hq => (hfits f hf).product q (List.mem_cons_of_mem _ hq)) hfs

theorem search_corners {limit : Option Quantity} (hlimit : ∀ l ∈ limit, l.below 1 = false) (seed : ℤ)
    (p : Configuration.Programs) (clock : Clock) {fuel : ℕ} (hfuel : 2 ≤ fuel) :
    ∃ c start, Search.ofPoints (corners n d) (.ok seed) p.hull facets = .ok (c, start) ∧
      start.run c (.of limit none) clock fuel p = ([[List.range (n + 1)]], .finished 1) := by
  obtain ⟨c, hpoints, rfl, hsize, hfull, hsup, hfs, -⟩ := exists_configuration hn hd hword hfacets
  have hbounds : (Bounds.of limit none).refuse clock 1 = none :=
    Bounds.refuse_of_not_limit (by simpa using hlimit)
  rw [← hpoints, ← hsize]
  exact ⟨c, _, Search.ofPoints_of_size hsize hfull hsup hfs seed p.hull,
    Search.run_range hbounds p hfuel⟩

omit hn hword hfacets in
theorem answers_corners (full : Separation.RankTest) :
    (Separation.coordinateProgram full).Answers n ((corners n d).map toVec)
      (Separation.pointOf (ones n)) := by
  have hcorners : HasCorners n d (corners n d) := hasCorners_corners (by omega)
  let c : Configuration := ⟨corners n d, n, []⟩
  exact Separation.coordinateProgram_answers (c := c) (length_corners n d)
    ((Configuration.isFull_iff_affineSpan hcorners.length).mpr
      (hcorners.affineSpan_eq_top (by omega))) full (length_ones n)

theorem isNonseparable_corners_ones {tol : Value} {t : Separation.Tolerance}
    (htol : Separation.Tolerance.ofValue tol = .ok t) {limit : Option Quantity}
    (hlimit : ∀ l ∈ limit, l.below 1 = false) {program : Separation.CoordinateProgram}
    (hprogram : program.Answers n ((corners n d).map toVec) (Separation.pointOf (ones n)))
    (verbose : Bool) (clock : Clock) (p : Configuration.Programs) :
    (Separation.isNonseparable ⟨tol, verbose, .of limit none⟩ clock n (corners n d) [ones n] p
      program facets).2 = .ok true := by
  obtain ⟨c, hpoints, rfl, hsize, hfull, hsup, hfs, hin⟩ := exists_configuration hn hd hword hfacets
  rw [← hpoints] at hprogram ⊢
  exact Separation.isNonseparable_of_size hsize hfull hsup hfs hin htol hlimit hprogram verbose
    clock p

end Search

theorem point_corners {program : Balance.Program}
    (hprogram : program.SolvesAt (Balance.matrixOf (corners n d) (ones n))) (entries : List String) :
    Balance.point (Balance.matrixOf (corners n d) (ones n)) entries program =
      .ok (cornerWeights n d) := by
  have hcorners : HasCorners n d (corners n d) := hasCorners_corners (by omega)
  obtain ⟨w, hw⟩ := Balance.point_returns hcorners.length (length_ones n)
    (fun k hk => by rw [getD_ones hk]; decide) (hcorners.ones_mem_interior hd) hprogram entries
  have hbalanced := Balance.isBalanced_of_point
    (fun r hr => (Balance.length_of_mem_matrixOf r hr).trans Balance.length_headD_matrixOf.symm) hw
  rw [hw, eq_cornerWeights hbalanced (Balance.getLastD_of_point hw) (by omega)]

end Corners

/-! ## The member -/

namespace Member

open Separation

variable {m : Member} {order : List ℕ} {c : ℚ}

/-- A member with a positive coefficient has the corners as positive exponents and the product as the
only negative one, whatever the order of the variables. If the proposed sets find the facets, it is
valid exactly if the degree is above the number of variables. Then the positive exponents have one
triangulation, which is a simplex; the support is nonseparable whenever one triangulation may be
visited and time is not bounded; and the homotopy starts at the inverse of the degree for each power,
what is left for the constant, and 1 for the product. -/
theorem uniform_of_coefficient_pos (horder : order.Perm (List.range m.count))
    (hvalue : m.coefficient.value? = some c) (hc : 0 < c) (hcount : 1 ≤ m.count)
    (hdegree : 1 ≤ m.degree) (hword : isWord m.degree = true)
    (hcase : 2 ≤ m.count ∨ (m.count : ℤ) < m.degree) :
    ∃ s, m.supportIn order = .ok s ∧ s.positiveExponents = corners m.count m.degree ∧
      s.negativeExponents = [ones m.count] ∧
      (∀ facets : Polytope.FacetProgram, (m.count ≠ 1 →
          Polytope.FindsFacets m.count s.exponents (facets m.count s.exponents)) →
        ((∃ p, (s.validate facets).2 = .ok p) ↔ (m.count : ℤ) < m.degree)) ∧
      ((m.count : ℤ) < m.degree →
        (∀ facets : Polytope.FacetProgram, (m.count ≠ 1 → Polytope.FindsFacets m.count
            s.positiveExponents (facets m.count s.positiveExponents)) →
          ∀ limit : Option Quantity, (∀ l ∈ limit, l.below 1 = false) →
            (∀ seed p clock fuel, 2 ≤ fuel → ∃ c start,
              Search.ofPoints s.positiveExponents (.ok seed) p.hull facets = .ok (c, start) ∧
              start.run c (.of limit none) clock fuel p =
                ([[List.range (m.count + 1)]], .finished 1)) ∧
            ∀ tol t, Tolerance.ofValue tol = .ok t → ∀ verbose clock p,
              (∀ full, (isNonseparableSupport ⟨tol, verbose, .of limit none⟩ clock s p
                (coordinateProgram full) facets).2 = .ok true) ∧
              ∀ program : CoordinateProgram,
                program.Answers m.count (s.positiveExponents.map toVec) (pointOf (ones m.count)) →
                (isNonseparable ⟨tol, verbose, .of limit none⟩ clock s.dimension
                  s.positiveExponents s.negativeExponents p program facets).2 = .ok true) ∧
        ∀ program : Balance.Program,
          program.SolvesAt (Balance.matrixOf s.positiveExponents (ones m.count)) →
          ∃ h, Homotopy.build s program = .ok h ∧
            h.weights = List.replicate m.count (1 / (m.degree : ℚ)) ++
              [1 - (m.count : ℚ) / m.degree, 1]) := by
  obtain ⟨s, hs, h⟩ := supportIn_returns horder hvalue hc hcount hdegree hword hcase
  refine ⟨s, hs, h.positive, h.negative,
    fun facets hfacets => h.validate_iff hcount hword hdegree hfacets,
    fun hd => ⟨fun facets hfacets limit hlimit => ⟨?search, ?nonseparable⟩, ?weights⟩⟩
  case search =>
    intro seed p clock fuel hfuel
    rw [h.positive] at hfacets ⊢
    exact search_corners hcount hd hword hfacets hlimit seed p clock hfuel
  case nonseparable =>
    intro tol t htol verbose clock p
    rw [h.positive] at hfacets
    have hnonseparable : ∀ program : CoordinateProgram,
        program.Answers m.count (s.positiveExponents.map toVec) (pointOf (ones m.count)) →
        (isNonseparable ⟨tol, verbose, .of limit none⟩ clock s.dimension s.positiveExponents
          s.negativeExponents p program facets).2 = .ok true := by
      intro program hprogram
      rw [h.positive] at hprogram
      rw [h.dimension, h.positive, h.negative]
      exact isNonseparable_corners_ones hcount hd hword hfacets htol hlimit hprogram verbose clock p
    refine ⟨fun full => ?_, hnonseparable⟩
    have hne : s.positiveExponents.isEmpty = false := by
      rw [h.positive, List.isEmpty_eq_false_iff]
      exact List.ne_nil_of_length_eq_add_one (length_corners _ _)
    simp only [isNonseparableSupport, h.checked, hne]
    exact hnonseparable _ (h.positive ▸ answers_corners hd full)
  case weights =>
    intro program hprogram
    rw [h.positive] at hprogram
    refine ⟨Homotopy.ofWeights s (cornerWeights m.count m.degree), ?_, rfl⟩
    have hpoint := point_corners hcount hd hprogram ((ones m.count).map Homotopy.wordText)
    simp [Homotopy.build, h.checked, h.negative, h.isSmooth, Homotopy.balanceWeights, h.positive,
      hpoint, bind, Except.bind]

theorem uniform_of_coefficient_pos_square :
    (∃ s, (⟨2, 3, .finite 1⟩ : Member).supportIn [1, 0] = .ok s ∧ (∃ p, s.validate.2 = .ok p) ∧
      (isNonseparableSupport ⟨.ofInt 0, true, .of (some (.int 1)) none⟩ (fun _ => 0) s).2 = .ok true ∧
      ∃ h, Homotopy.build s = .ok h ∧ h.weights = [1 / 3, 1 / 3, 1 - 2 / 3, 1]) ∧
    ∃ s, (⟨2, 2, .finite 1⟩ : Member).supportIn [1, 0] = .ok s ∧ ∀ p, s.validate.2 ≠ .ok p := by
  have horder : [1, 0].Perm (List.range 2) := by decide
  have hfacets : ∀ {d : ℤ} {points : List (List ℤ)}, d ≠ 0 → HasCorners 2 d points →
      Polytope.FindsFacets 2 points (Polytope.facetSimplices 2 points) := fun hd h =>
    Polytope.findsFacets_facetSimplices two_pos h.length (h.affineSpan_eq_top hd)
  constructor
  · obtain ⟨s, hs, hpositive, -, hvalid, hall⟩ := uniform_of_coefficient_pos (m := ⟨2, 3, .finite 1⟩)
      horder rfl one_pos (by decide) (by decide) (by decide) (by decide)
    obtain ⟨s', hs', h⟩ := supportIn_returns (m := ⟨2, 3, .finite 1⟩) horder rfl one_pos (by decide)
      (by decide) (by decide) (by decide)
    obtain rfl := Except.ok.inj (hs.symm.trans hs')
    obtain ⟨hsearch, hweights⟩ := hall (by decide)
    refine ⟨s, hs, (hvalid _ fun _ => hfacets (by decide) h.hasCorners).mpr (by decide), ?_, ?_⟩
    · obtain ⟨-, hnonseparable⟩ := hsearch Polytope.facetSimplices
        (fun _ => hfacets (by decide) (hpositive ▸ hasCorners_corners (by decide)))
        (some (.int 1)) (by decide)
      exact (hnonseparable (.ofInt 0) _ rfl true _ .exact).1 numericRank
    · exact hweights .exact (hpositive ▸ Support.solvesAt_cubic)
  · obtain ⟨s, hs, -, -, hvalid, -⟩ := uniform_of_coefficient_pos (m := ⟨2, 2, .finite 1⟩)
      horder rfl one_pos (by decide) (by decide) (by decide) (by decide)
    obtain ⟨s', hs', h⟩ := supportIn_returns (m := ⟨2, 2, .finite 1⟩) horder rfl one_pos (by decide)
      (by decide) (by decide) (by decide)
    obtain rfl := Except.ok.inj (hs.symm.trans hs')
    refine ⟨s, hs, fun p hp => ?_⟩
    have hlt := (hvalid _ fun _ => hfacets (by decide) h.hasCorners).mp ⟨p, hp⟩
    exact absurd hlt (by decide)

end Member

end Orthant
