import Mathlib
import Orthant.Proofs.Linear.Spectrum
import Orthant.Proofs.Separation.Heredity
import Orthant.Proofs.Triangulation.Acceptance
import Orthant.Proofs.Triangulation.Barycentric
import Orthant.Proofs.Triangulation.Single

/-! # Separation by a lattice simplex

For a tolerance below the inverse of its determinant, a lattice simplex separates lattice points when
its hull contains some of them but not all, and those that it contains do not all lie on one common
facet. A numeric test of the rank finds this out for vertices of moderate size; long and thin simplices
it takes for degenerate.
-/

namespace Orthant

open Finset Lifting

namespace Configuration

theorem realPoint_mem_hullAt_erase_iff {c : Configuration} {s : Finset ℕ} {i : ℕ}
    (hs : IsSimplex ℚ (c.vector ℚ) s) (hI : s ⊆ c.placeSet) (b : List ℤ) (hi : i ∈ s) :
    realPoint c.dim b ∈ c.hullAt (s.erase i) ↔ realPoint c.dim b ∈ c.hullAt s ∧
      coord (K := ℚ) (c.vector ℚ) s i (liftPoint c.dim ℚ b) = 0 := by
  rw [mem_hullAt_erase_iff (isSimplex_change_field hs hI) hi, raise_realPoint,
    coord_liftPoint_cast hs hI hi, Rat.cast_eq_zero]

end Configuration

namespace Separation

/-! ## Cells -/

section Cell

variable {c : Configuration} {σ : Cell} {tol : Value} {negative : List (List ℤ)}

/-- The hull of a cell contains some of the points but not all, and on each of its facets it misses one
of those that it contains. -/
def HullSeparates (c : Configuration) (σ : Cell) (negative : List (List ℤ)) : Prop :=
  (∃ b ∈ negative, realPoint c.dim b ∈ c.hullAt σ.toFinset) ∧
  (∃ b ∈ negative, realPoint c.dim b ∉ c.hullAt σ.toFinset) ∧
  ∀ i ∈ σ, ∃ b ∈ negative, realPoint c.dim b ∈ c.hullAt σ.toFinset ∧
    realPoint c.dim b ∉ c.hullAt (σ.toFinset.erase i)

theorem cellSeparates_zero (hσ : σ ∈ c.simplices) (hs : IsSimplex ℚ (c.vector ℚ) σ.toFinset)
    (hneg : ∀ b ∈ negative, b.length = c.dim) : ∃ r,
      cellSeparates (.real (.int 0)) c.dim c.points negative σ = .ok r ∧
        (r = true ↔ HullSeparates c σ negative) := by
  refine ⟨_, cellSeparates_eq hσ hs hneg (.int 0), ?_⟩
  have hI := Configuration.toFinset_subset hσ
  have hlen := (Configuration.mem_simplices.mp hσ).2.1
  have hreach : ∀ r : ℚ, Tolerance.reaches (.real (.int 0)) r = decide (r ≤ 0) :=
    Quantity.atLeast_eq rfl
  set l : List ℤ → Vec := fun b => σ.map fun i =>
    coord (K := ℚ) (c.vector ℚ) σ.toFinset i (liftPoint c.dim ℚ b) with hl
  have hcontains : ∀ b, contains (.real (.int 0)) (l b) = true ↔
      realPoint c.dim b ∈ c.hullAt σ.toFinset := by
    intro b
    rw [Configuration.realPoint_mem_hullAt_iff hs hI, contains, List.all_eq_true]
    simp [hl, hreach]
  have hvanishes : ∀ b, realPoint c.dim b ∈ c.hullAt σ.toFinset → ∀ k (hk : k < σ.length),
      (vanishes (.real (.int 0)) (entry (l b) k) = false ↔
        realPoint c.dim b ∉ c.hullAt (σ.toFinset.erase σ[k])) := by
    intro b hb k hk
    rw [Configuration.realPoint_mem_hullAt_erase_iff hs hI b (by simp),
      entry_eq_getElem (by simpa [hl] using hk), List.getElem_map, vanishes, hreach, hreach,
      ← Bool.not_eq_true, Bool.and_eq_true, decide_eq_true_iff, decide_eq_true_iff, neg_nonpos,
      ← le_antisymm_iff, and_iff_right hb]
  clear_value l
  rw [separatesBy_iff, ← hlen, HullSeparates]
  refine and_congr (by simp [hcontains]) (and_congr ?_ ?_)
  · simp [hcontains, ← Bool.not_eq_true]
  · rw [List.forall_mem_iff_forall_getElem]
    refine forall₂_congr fun k hk => ?_
    simp only [List.map_map, List.mem_map, Function.comp_apply, Option.some.injEq]
    constructor
    · rintro ⟨_, ⟨b, hb, rfl⟩, hin, hfar⟩
      have hin := (hcontains b).mp hin
      exact ⟨b, hb, hin, (hvanishes b hin k hk).mp hfar⟩
    · rintro ⟨b, hb, hin, hfar⟩
      exact ⟨l b, ⟨b, hb, rfl⟩, (hcontains b).mpr hin, (hvanishes b hin k hk).mpr hfar⟩

end Cell

/-! ## Lists of vertices -/

section Vertices

variable {n : ℕ} {vertices negative : List (List ℤ)} {i : ℕ}

/-- Lattice points in the right number whose lifted vectors are linearly independent. -/
structure IsLatticeSimplex (n : ℕ) (vertices : List (List ℤ)) : Prop where
  count : vertices.length = n + 1
  length : ∀ v ∈ vertices, v.length = n
  det_ne_zero : liftedDet n vertices ≠ 0

/-- The convex hull of the vertices but one. -/
def facetHull (n : ℕ) (vertices : List (List ℤ)) (i : ℕ) : Set (Fin n → ℝ) :=
  convexHull ℝ (pointSet n (vertices.eraseIdx i))

/-- The hull of the vertices contains some of the points but not all, and those that it contains do
not all lie on one common facet. -/
def SimplexSeparates (n : ℕ) (vertices negative : List (List ℤ)) : Prop :=
  (∃ b ∈ negative, realPoint n b ∈ convexHull ℝ (pointSet n vertices)) ∧
  (∃ b ∈ negative, realPoint n b ∉ convexHull ℝ (pointSet n vertices)) ∧
  ¬ ∃ i < n + 1, ∀ b ∈ negative, realPoint n b ∈ convexHull ℝ (pointSet n vertices) →
    realPoint n b ∈ facetHull n vertices i

namespace IsLatticeSimplex

variable (h : IsLatticeSimplex n vertices)

include h

theorem range_mem_simplices :
    List.range (n + 1) ∈ (⟨vertices, n, []⟩ : Configuration).simplices :=
  h.count ▸ Configuration.range_mem_simplices (c := ⟨vertices, n, []⟩) h.count

theorem map_getD_range : (List.range (n + 1)).map (fun i => vertices.getD i []) = vertices :=
  h.count ▸ map_getD_range_length vertices []

theorem isSimplex : IsSimplex ℚ ((⟨vertices, n, []⟩ : Configuration).vector ℚ)
    (List.range (n + 1)).toFinset :=
  (Configuration.isSimplex_iff_det h.range_mem_simplices).mpr
    (h.map_getD_range.symm ▸ h.det_ne_zero)

theorem isFine {x : Quantity} {q : ℚ} (hx : x.toRat = .ok q) (hq : 0 ≤ q)
    (hfine : q < 1 / |(liftedDet n vertices : ℚ)|) : IsFine (.real x) n vertices := by
  refine ⟨x, q, rfl, hx, hq, fun σ hσ => ?_⟩
  have hmem : σ ∈ (⟨vertices, n, []⟩ : Configuration).simplices := hσ
  rw [Configuration.simplices_of_size (c := ⟨vertices, n, []⟩) h.count, List.mem_singleton] at hmem
  obtain rfl : σ = List.range (n + 1) := hmem.trans (congrArg List.range h.count)
  have hpos : 0 < |(liftedDet n vertices : ℚ)| :=
    abs_pos.mpr (Int.cast_ne_zero.mpr h.det_ne_zero)
  rwa [h.map_getD_range, mul_comm, ← lt_div_iff₀ hpos]

theorem placeSet_eq :
    (⟨vertices, n, []⟩ : Configuration).placeSet = (List.range (n + 1)).toFinset := by
  ext i
  simp [Configuration.mem_placeSet, Configuration.size, h.count]

theorem hullAt_eq : (⟨vertices, n, []⟩ : Configuration).hullAt (List.range (n + 1)).toFinset =
    convexHull ℝ (pointSet n vertices) := by
  rw [← h.placeSet_eq, Configuration.hullAt_placeSet]

theorem hullAt_erase_eq (i : ℕ) :
    (⟨vertices, n, []⟩ : Configuration).hullAt ((List.range (n + 1)).toFinset.erase i) =
      facetHull n vertices i := by
  refine congrArg (convexHull ℝ) (Set.ext fun x => ?_)
  simp only [pointSet, Set.mem_image, Set.mem_ofPred_eq, List.mem_eraseIdx_iff_getElem, coe_erase,
    List.coe_toFinset, Set.mem_sdiff, List.mem_range, Set.mem_singleton_iff]
  constructor
  · rintro ⟨k, ⟨hk, hki⟩, rfl⟩
    have hk : k < vertices.length := h.count ▸ hk
    exact ⟨_, ⟨k, hk, hki, rfl⟩, by simp [Configuration.pointAt, hk]⟩
  · rintro ⟨_, ⟨k, hk, hki, rfl⟩, rfl⟩
    exact ⟨k, ⟨h.count ▸ hk, hki⟩, by simp [Configuration.pointAt, hk]⟩

/-- With the exact rank, all tolerances below the inverse of the determinant give the same answer. -/
theorem separates_exactCoordinates {x : Quantity} {q : ℚ} (hx : x.toRat = .ok q) (hq : 0 ≤ q)
    (hfine : q < 1 / |(liftedDet n vertices : ℚ)|) (hneg : ∀ b ∈ negative, b.length = n) : ∃ r,
      separates (Tolerance.ofValue (.real x)) n (vertices.map toVec)
        (.ok (negative.map fun b => .ok (pointOf b))) exactCoordinates = .ok r ∧
      separates (Tolerance.ofValue (.real (.int 0))) n (vertices.map toVec)
        (.ok (negative.map fun b => .ok (pointOf b))) exactCoordinates = .ok r ∧
      (r = true ↔ SimplexSeparates n vertices negative) := by
  let c : Configuration := ⟨vertices, n, []⟩
  have hcell : ∀ tol, cellSeparates tol n vertices negative (List.range (n + 1)) =
      separates (Tolerance.ofValue tol) n (vertices.map toVec)
        (.ok (negative.map fun b => .ok (pointOf b))) exactCoordinates := by
    intro tol
    rw [cellSeparates, ← h.count, map_toVec_range]
  have hfine' := h.isFine hx hq hfine
  have hzero : IsFine (.real (.int 0)) n vertices :=
    h.isFine (q := 0) rfl le_rfl (hq.trans_lt hfine)
  obtain ⟨r, hr, hr₀⟩ := cellSeparates_of_isFine (c := c) h.range_mem_simplices h.isSimplex hneg
    hfine' hzero
  obtain ⟨r', hr', hiff⟩ := cellSeparates_zero (c := c) h.range_mem_simplices h.isSimplex hneg
  obtain rfl : r = r' := Except.ok.inj (hr₀.symm.trans hr')
  refine ⟨r, hcell _ ▸ hr, hcell _ ▸ hr₀, hiff.trans ?_⟩
  simp only [HullSeparates, c, h.hullAt_eq, h.hullAt_erase_eq, List.mem_range, SimplexSeparates]
  push Not
  rfl

/-- Another test of the rank does nothing but take some vertices for degenerate. -/
theorem separates_coordinateProgram (full : RankTest) (tol : Except Error Tolerance)
    (points : Except Error (List (Except Error Point))) :
    separates tol n (vertices.map toVec) points (coordinateProgram full) =
      if full n (vertices.map toVec) then
        separates tol n (vertices.map toVec) points exactCoordinates
      else .ok false := by
  have hne : (vertices.map toVec).isEmpty = false := by
    rw [List.isEmpty_map, List.isEmpty_eq_false_iff]
    exact List.ne_nil_of_length_eq_add_one h.count
  have hprogram : coordinateProgram full n (vertices.map toVec) =
      if full n (vertices.map toVec) then exactCoordinates n (vertices.map toVec) else .ok none := by
    have hcell := coordinateProgram_eq h.range_mem_simplices h.isSimplex full
    rwa [← h.count, map_toVec_range] at hcell
  rw [separates, separates, hne, hprogram]
  cases full n (vertices.map toVec) <;> rfl

theorem trace_liftedMatrix :
    ((Orthant.liftedMatrix n vertices).transpose * Orthant.liftedMatrix n vertices).trace =
      (vertices.map fun v => dotInt v v + 1).sum := by
  have hcolumn : ∀ k : Fin (n + 1), ∑ r, Orthant.liftedMatrix n vertices r k *
      Orthant.liftedMatrix n vertices r k =
        dotInt (vertices.getD k []) (vertices.getD k []) + 1 := by
    intro k
    have hlen : (vertices.getD k []).length = n := by
      have hk : (k : ℕ) < vertices.length := h.count.symm ▸ k.isLt
      rw [List.getD_eq_getElem _ _ hk]
      exact h.length _ (List.getElem_mem hk)
    rw [Fin.sum_univ_castSucc, dotInt_eq_sum hlen]
    simp [Orthant.liftedMatrix, liftPoint]
  simp only [Matrix.trace, Matrix.diag_apply, Matrix.mul_apply, Matrix.transpose_apply, hcolumn]
  conv_rhs => rw [← h.map_getD_range, List.map_map]
  exact Fin.sum_univ_eq_sum_range
    (fun k => dotInt (vertices.getD k []) (vertices.getD k []) + 1) (n + 1)

theorem realMatrix_liftedMatrix : HasShape (n + 1) (n + 1) (liftedMatrix n (vertices.map toVec)) ∧
    realMatrix (n + 1) (liftedMatrix n (vertices.map toVec)) =
      (Orthant.liftedMatrix n vertices).map (Int.cast : ℤ → ℝ) := by
  let c : Configuration := ⟨vertices, n, []⟩
  have hlen : (List.range (n + 1)).length = c.dim + 1 := List.length_range
  have hrows : liftedMatrix n (vertices.map toVec) = c.vertexMatrix (List.range (n + 1)) := by
    rw [← liftedMatrix_eq_vertexMatrix hlen, ← map_toVec_range, h.count]
  have hmatrix := Configuration.toMatrix_vertexMatrix (c := c) hlen
  rw [show (List.range (n + 1)).map c.pointAt = vertices from h.map_getD_range] at hmatrix
  rw [hrows]
  refine ⟨Configuration.hasShape_vertexMatrix hlen, ?_⟩
  ext i j
  have hcell := congrFun (congrFun hmatrix i) j
  rw [toMatrix_apply, Matrix.map_apply] at hcell
  rw [realMatrix_apply, Matrix.map_apply, hcell, Rat.cast_intCast]

theorem numericRank_of_det (hlarge : rankTolerance (n + 1) (n + 1) ^ 2 *
      ((vertices.map fun v => dotInt v v + 1).sum : ℤ) ^ (n + 1) < (liftedDet n vertices : ℚ) ^ 2) :
    numericRank n (vertices.map toVec) = true := by
  obtain ⟨hshape, hreal⟩ := h.realMatrix_liftedMatrix
  have htrace : ((realMatrix (n + 1) (liftedMatrix n (vertices.map toVec))).transpose *
      realMatrix (n + 1) (liftedMatrix n (vertices.map toVec))).trace =
        ((vertices.map fun v => dotInt v v + 1).sum : ℤ) := by
    rw [← h.trace_liftedMatrix, hreal]
    simp [Matrix.trace, Matrix.mul_apply]
  have hdet : (realMatrix (n + 1) (liftedMatrix n (vertices.map toVec))).det =
      (liftedDet n vertices : ℤ) := by
    rw [hreal, liftedDet, Int.cast_det]
  rw [numericRank, List.length_map, h.count]
  refine hasFullRank_of_det hshape ?_
  rw [htrace, hdet]
  have hcast := (Rat.cast_lt (K := ℝ)).mpr hlarge
  rwa [Rat.cast_mul, Rat.cast_pow, Rat.cast_pow, Rat.cast_pow, Rat.cast_intCast,
    Rat.cast_intCast] at hcast

/-- The test of a lattice simplex by its exact inverse gives the same answer for a tolerance below the
inverse of the determinant as for the tolerance zero, whatever test of the rank comes first: whether
the rank is found to be full, some of the points but not all are in the simplex, and those that are do
not all lie on one common facet. The numeric rank is full if the determinant is large, compared with
the lifted vertices. -/
theorem separates_of_lt_gap {x : Quantity} {q : ℚ} (hx : x.toRat = .ok q) (hq : 0 ≤ q)
    (hfine : q < 1 / |(liftedDet n vertices : ℚ)|) (hneg : ∀ b ∈ negative, b.length = n) :
    (∀ full : RankTest, ∃ r,
      separates (Tolerance.ofValue (.real x)) n (vertices.map toVec)
        (.ok (negative.map fun b => .ok (pointOf b))) (coordinateProgram full) = .ok r ∧
      separates (Tolerance.ofValue (.real (.int 0))) n (vertices.map toVec)
        (.ok (negative.map fun b => .ok (pointOf b))) (coordinateProgram full) = .ok r ∧
      (r = true ↔ full n (vertices.map toVec) = true ∧ SimplexSeparates n vertices negative)) ∧
    (rankTolerance (n + 1) (n + 1) ^ 2 *
      ((vertices.map fun v => dotInt v v + 1).sum : ℤ) ^ (n + 1) < (liftedDet n vertices : ℚ) ^ 2 →
        numericRank n (vertices.map toVec) = true) := by
  refine ⟨fun full => ?_, h.numericRank_of_det⟩
  obtain ⟨r, hr, hr₀, hiff⟩ := h.separates_exactCoordinates hx hq hfine hneg
  rw [h.separates_coordinateProgram, h.separates_coordinateProgram, hr, hr₀]
  cases hfull : full n (vertices.map toVec) with
  | false => exact ⟨false, rfl, rfl, by simp⟩
  | true => exact ⟨r, rfl, rfl, by simp [hiff]⟩

end IsLatticeSimplex

theorem separates_of_lt_gap_triangle :
    IsLatticeSimplex 2 [[0, 0], [4, 0], [0, 4]] ∧ liftedDet 2 [[0, 0], [4, 0], [0, 4]] = 16 ∧
    SimplexSeparates 2 [[0, 0], [4, 0], [0, 4]] [[1, 1], [3, 3]] ∧
    separates (Tolerance.ofValue (.real (.rational (1 / 17)))) 2
      ([[0, 0], [4, 0], [0, 4]].map toVec)
      (.ok ([[1, 1], [3, 3]].map fun b => .ok (pointOf b))) numericCoordinates = .ok true := by
  have hdet : liftedDet 2 [[0, 0], [4, 0], [0, 4]] = 16 := by decide +kernel
  have h : IsLatticeSimplex 2 [[0, 0], [4, 0], [0, 4]] := ⟨rfl, by decide, by simp [hdet]⟩
  have hneg : ∀ b ∈ ([[1, 1], [3, 3]] : List (List ℤ)), b.length = 2 := by decide
  obtain ⟨hseparates, hrank⟩ := h.separates_of_lt_gap (x := .rational (1 / 17)) (q := 1 / 17) rfl
    (by norm_num) (by rw [hdet]; norm_num) hneg
  have hrank : numericRank 2 ([[0, 0], [4, 0], [0, 4]].map toVec) = true :=
    hrank (by rw [hdet]; norm_num [rankTolerance_eq, dotInt])
  obtain ⟨r, hr, hr₀, hiff⟩ := hseparates numericRank
  have hzero : separates (Tolerance.ofValue (.real (.int 0))) 2
      ([[0, 0], [4, 0], [0, 4]].map toVec)
      (.ok ([[1, 1], [3, 3]].map fun b => .ok (pointOf b))) numericCoordinates = .ok true := by
    decide +kernel
  obtain rfl : r = true := Except.ok.inj (hr₀.symm.trans hzero)
  exact ⟨h, hdet, (hiff.mp rfl).2, hr⟩

/-- A long and thin triangle of determinant 3 has one of the points in its interior and the other one
outside, but numerically its rank is not full. -/
theorem separates_thin :
    IsLatticeSimplex 2 [[0, 0], [200000001, 2], [100000002, 1]] ∧
    |liftedDet 2 [[0, 0], [200000001, 2], [100000002, 1]]| = 3 ∧
    SimplexSeparates 2 [[0, 0], [200000001, 2], [100000002, 1]] [[100000001, 1], [-5, 7]] ∧
    separates (Tolerance.ofValue (.real (.int 0))) 2
      ([[0, 0], [200000001, 2], [100000002, 1]].map toVec)
      (.ok ([[100000001, 1], [-5, 7]].map fun b => .ok (pointOf b))) numericCoordinates =
        .ok false := by
  have hdet : |liftedDet 2 [[0, 0], [200000001, 2], [100000002, 1]]| = 3 := by decide +kernel
  have h : IsLatticeSimplex 2 [[0, 0], [200000001, 2], [100000002, 1]] :=
    ⟨rfl, by decide, by intro h; simp [h] at hdet⟩
  have hneg : ∀ b ∈ ([[100000001, 1], [-5, 7]] : List (List ℤ)), b.length = 2 := by decide
  obtain ⟨r, -, hr, hiff⟩ := h.separates_exactCoordinates (x := .int 0) (q := 0) rfl le_rfl
    (one_div_pos.mpr (abs_pos.mpr (Int.cast_ne_zero.mpr h.det_ne_zero))) hneg
  have hexact : separates (Tolerance.ofValue (.real (.int 0))) 2
      ([[0, 0], [200000001, 2], [100000002, 1]].map toVec)
      (.ok ([[100000001, 1], [-5, 7]].map fun b => .ok (pointOf b))) exactCoordinates =
        .ok true := by decide +kernel
  refine ⟨h, hdet, hiff.mp (Except.ok.inj (hr.symm.trans hexact)), by decide +kernel⟩

end Vertices

end Separation

end Orthant
