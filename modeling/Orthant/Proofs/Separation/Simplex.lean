import Mathlib
import Orthant.Proofs.Linear.Matrix
import Orthant.Proofs.Triangulation.Determinant
import Orthant.Separation.Nonseparable

/-! # The test of one cell

The coordinates of a lattice point in a simplex are multiples of the inverse of its determinant. So
a tolerance below that inverse counts no coordinate as zero that is not, and all such tolerances
give the same answer.
-/

namespace Orthant

open Finset Lifting

theorem rank_of_invert {n : ℕ} {m inv : List Vec} (hm : HasShape n n m)
    (h : invert m = some inv) : rank n m = n := by
  have hrow : ∀ r < n, rowAt m r ∈ m := fun r hr => by
    rw [rowAt_eq_getElem (hm.length.symm ▸ hr)]
    exact List.getElem_mem _
  have hw : HasWidth n m := by
    intro row hmem
    obtain ⟨r, hr, rfl⟩ := List.mem_iff_getElem.mp hmem
    rw [← rowAt_eq_getElem hr]
    exact hm.row r (hm.length ▸ hr)
  refine (rank_eq_iff hw).mpr (eq_bot_iff.mpr fun x hx => ?_)
  rw [mem_nullSpace] at hx
  rw [Submodule.mem_bot]
  apply eq_zero_of_mulVec hm h
  funext r
  exact hx _ (hrow r r.isLt)

theorem Quantity.atLeast_eq {x : Quantity} {q : ℚ} (h : x.toRat = .ok q) (r : ℚ) :
    x.atLeast r = decide (r ≤ q) := by
  have hcompare : x.compare? r = some (if q < r then .lt else if r < q then .gt else .eq) := by
    cases x with
    | bool b => cases h; rfl
    | int n => cases h; rfl
    | rational q' => cases h; rfl
    | double x =>
      cases x with
      | nan => cases h
      | infinite s => cases h
      | negZero => cases h; rfl
      | finite q' => cases h; rfl
  rw [atLeast, hcompare]
  by_cases hlt : q < r
  · simp [hlt, hlt.not_ge]
  · have hle : r ≤ q := not_lt.mp hlt
    simp only [hlt, if_false, hle, decide_true]
    by_cases hgt : r < q <;> simp [hgt]

namespace Separation

variable {n : ℕ} {positive negative : List (List ℤ)} {σ : Cell} {tol tol' : Value}

/-- Whether the simplex on the positive exponents at some places separates the negative ones. -/
def cellSeparates (tol : Value) (n : ℕ) (positive negative : List (List ℤ)) (σ : Cell) :
    Except Error Bool :=
  separates (Tolerance.ofValue tol) n (σ.map fun i => toVec (positive.getD i []))
    (.ok (negative.map fun b => .ok (pointOf b))) exactCoordinates

/-- A tolerance that is not negative and below the inverse of the determinants of all `n + 1` of the
points. -/
def IsFine (tol : Value) (n : ℕ) (points : List (List ℤ)) : Prop :=
  ∃ (x : Quantity) (q : ℚ), tol = .real x ∧ x.toRat = .ok q ∧ 0 ≤ q ∧
    ∀ σ ∈ choices (n + 1) (List.range points.length),
      |(liftedDet n (σ.map fun i => points.getD i []) : ℚ)| * q < 1

theorem le_iff_nonpos {l q : ℚ} {d z : ℤ} (hd : d ≠ 0) (hz : l * d = z) (hq : 0 ≤ q)
    (hdq : |(d : ℚ)| * q < 1) : l ≤ q ↔ l ≤ 0 := by
  refine ⟨fun h => not_lt.mp fun hl => ?_, fun h => h.trans hq⟩
  have hd' : (0 : ℚ) < |(d : ℚ)| := abs_pos.mpr (Int.cast_ne_zero.mpr hd)
  have hz0 : z ≠ 0 := by
    rintro rfl
    rw [Int.cast_zero, mul_eq_zero] at hz
    exact hz.elim hl.ne' (Int.cast_ne_zero.mpr hd)
  have hone : (1 : ℚ) ≤ |(z : ℚ)| := by exact_mod_cast Int.one_le_abs hz0
  have habs : |(z : ℚ)| = |(d : ℚ)| * l := by rw [← hz, abs_mul, abs_of_pos hl, mul_comm]
  have := mul_le_mul_of_nonneg_left h hd'.le
  linarith

theorem separatesBy_congr {t t' : Tolerance} {k : ℕ} {points : List Vec}
    (hlen : ∀ l ∈ points, l.length = k)
    (h : ∀ l ∈ points, ∀ v ∈ l, t.reaches v = t'.reaches v ∧ t.reaches (-v) = t'.reaches (-v)) :
    separatesBy t k (points.map some) = separatesBy t' k (points.map some) := by
  have hcontains : points.filter (contains t) = points.filter (contains t') :=
    List.filter_congr fun l hl => by
      rw [contains, contains, Bool.eq_iff_iff, List.all_eq_true, List.all_eq_true]
      exact forall₂_congr fun v hv => by rw [(h l hl v hv).2]
  have hshare : shareFacet t k (points.filter (contains t')) =
      shareFacet t' k (points.filter (contains t')) := by
    rw [shareFacet, shareFacet, Bool.eq_iff_iff, List.any_eq_true, List.any_eq_true]
    refine exists_congr fun i => and_congr_right fun hi => ?_
    rw [List.all_eq_true, List.all_eq_true]
    refine forall₂_congr fun l hl => ?_
    have hl := (List.mem_filter.mp hl).1
    have hv : entry l i ∈ l := by
      rw [entry_eq_getElem ((hlen l hl).symm ▸ List.mem_range.mp hi)]
      exact List.getElem_mem _
    rw [vanishes, vanishes, (h l hl _ hv).1, (h l hl _ hv).2]
  simp only [separatesBy, List.filterMap_map, Function.comp_def, id, List.filterMap_some,
    List.length_map, hcontains, hshare]

section Cell

variable {c : Configuration} (hσ : σ ∈ c.simplices) (hs : IsSimplex ℚ (c.vector ℚ) σ.toFinset)
  (hneg : ∀ b ∈ negative, b.length = c.dim)

theorem mapM_pointOf (b : List ℤ) : (pointOf b).mapM id = some (toVec b) := by
  induction b with
  | nil => rfl
  | cons a b ih =>
    have hcons : (pointOf (a :: b)).mapM id =
        (some (a : ℚ)).bind fun x => ((pointOf b).mapM id).bind fun xs => some (x :: xs) :=
      List.mapM_cons
    rw [hcons, ih]
    rfl

theorem map_getD_range_length {α : Type} (l : List α) (x : α) :
    (List.range l.length).map (fun i => l.getD i x) = l := by
  refine List.ext_getElem (by simp) fun i _ hi => ?_
  simp [hi]

theorem map_toVec_range (points : List (List ℤ)) :
    ((List.range points.length).map fun i => toVec (points.getD i [])) = points.map toVec := by
  conv_rhs => rw [← map_getD_range_length points [], List.map_map]
  rfl

theorem liftedMatrix_eq_vertexMatrix (hl : σ.length = c.dim + 1) :
    liftedMatrix c.dim (σ.map fun i => toVec (c.points.getD i [])) = c.vertexMatrix σ := by
  simp only [liftedMatrix, columns, Configuration.vertexMatrix, List.map_map, List.length_map, hl]
  congr 1
  refine List.map_congr_left fun r _ => List.map_congr_left fun i _ => ?_
  simp [entry, toVec, Configuration.pointAt]
  cases (c.points[i]?.getD [])[r]? <;> simp

include hσ hs

theorem exists_barycentricInverse : ∃ inverse, c.inverse σ = some inverse ∧
    exactRank c.dim (σ.map fun i => toVec (c.points.getD i [])) = true ∧
    barycentricInverse c.dim (σ.map fun i => toVec (c.points.getD i [])) = .ok inverse := by
  obtain ⟨hp, hl, -⟩ := Configuration.mem_simplices.mp hσ
  obtain ⟨inverse, hinv⟩ := (Configuration.inverse_eq_some_iff hl hp.nodup).mpr hs
  have hmatrix := liftedMatrix_eq_vertexMatrix (c := c) hl
  have hne : σ ≠ [] := fun h => by simp [h] at hl
  have hrank : rank (c.dim + 1) (c.vertexMatrix σ) = c.dim + 1 :=
    rank_of_invert (Configuration.hasShape_vertexMatrix hl) hinv
  refine ⟨inverse, hinv, ?_, ?_⟩
  · rw [exactRank, List.length_map, hl, hmatrix, hrank, decide_eq_true rfl]
  · rw [barycentricInverse, if_neg (by simp [hne, hl]), hmatrix]
    rw [show invert (c.vertexMatrix σ) = some inverse from hinv]

theorem exists_exactCoordinates : ∃ locate,
    exactCoordinates c.dim (σ.map fun i => toVec (c.points.getD i [])) = .ok (some locate) ∧
      ∀ b : List ℤ, b.length = c.dim → locate (pointOf b) = .ok (some (σ.map fun i =>
        coord (K := ℚ) (c.vector ℚ) σ.toFinset i (liftPoint c.dim ℚ b))) := by
  obtain ⟨inverse, hinv, hexact, hbary⟩ := exists_barycentricInverse hσ hs
  refine ⟨coordinates c.dim inverse, ?_, fun b hb => ?_⟩
  · rw [exactCoordinates, coordinateProgram, if_pos hexact, hbary]
    rfl
  · rw [coordinates, if_pos (by simpa [pointOf] using hb), mapM_pointOf, Option.map_some,
      Configuration.applyRows_inverse (Configuration.mem_simplices.mp hσ).2.1 hinv hb]

/-- A test of the rank does nothing but refuse vertices. -/
theorem coordinateProgram_eq (full : RankTest) :
    coordinateProgram full c.dim (σ.map fun i => toVec (c.points.getD i [])) =
      if full c.dim (σ.map fun i => toVec (c.points.getD i [])) then
        exactCoordinates c.dim (σ.map fun i => toVec (c.points.getD i []))
      else .ok none := by
  obtain ⟨inverse, -, hexact, -⟩ := exists_barycentricInverse hσ hs
  rw [exactCoordinates, coordinateProgram, coordinateProgram, if_pos hexact]

include hneg

theorem cellSeparates_eq (x : Quantity) :
    cellSeparates (.real x) c.dim c.points negative σ = .ok (separatesBy (.real x) (c.dim + 1)
      ((negative.map fun b => σ.map fun i =>
        coord (K := ℚ) (c.vector ℚ) σ.toFinset i (liftPoint c.dim ℚ b)).map some)) := by
  obtain ⟨-, hl, -⟩ := Configuration.mem_simplices.mp hσ
  have hne : σ ≠ [] := fun h => by simp [h] at hl
  obtain ⟨locate, hprogram, hlocate⟩ := exists_exactCoordinates hσ hs
  rw [cellSeparates, separates, if_neg (by simpa using hne), hprogram, List.length_map, hl]
  cases negative with
  | nil => rfl
  | cons b rest =>
    have hrest : (rest.map fun b => (.ok (pointOf b) : Except Error Point)).mapM (fun p => do
        locate (← p)) = .ok (rest.map fun b => some (σ.map fun i =>
          coord (K := ℚ) (c.vector ℚ) σ.toFinset i (liftPoint c.dim ℚ b))) := by
      rw [List.mapM_map]
      exact mapM_eq_ok fun b hb => hlocate b (hneg b (List.mem_cons_of_mem _ hb))
    refine bind_eq_ok.mpr ⟨_, rfl, bind_eq_ok.mpr ⟨_, rfl, ?_⟩⟩
    refine bind_eq_ok.mpr ⟨_, rfl, bind_eq_ok.mpr ⟨_, hlocate b (hneg b List.mem_cons_self), ?_⟩⟩
    refine bind_eq_ok.mpr ⟨.real x, rfl, bind_eq_ok.mpr ⟨_, hrest, ?_⟩⟩
    simp only [List.map_cons, List.map_map, Function.comp_def]

theorem cellSeparates_of_isFine (htol : IsFine tol c.dim c.points)
    (htol' : IsFine tol' c.dim c.points) :
    ∃ r, cellSeparates tol c.dim c.points negative σ = .ok r ∧
      cellSeparates tol' c.dim c.points negative σ = .ok r := by
  obtain ⟨x, q, rfl, hx, hq, hd⟩ := htol
  obtain ⟨x', q', rfl, hx', hq', hd'⟩ := htol'
  refine ⟨_, cellSeparates_eq hσ hs hneg x, ?_⟩
  rw [cellSeparates_eq hσ hs hneg x']
  congr 1
  have hdet := (Configuration.isSimplex_iff_det hσ).mp hs
  refine separatesBy_congr ?_ ?_
  · intro l hl
    obtain ⟨b, -, rfl⟩ := List.mem_map.mp hl
    simpa using (Configuration.mem_simplices.mp hσ).2.1
  · intro l hl v hv
    obtain ⟨b, -, rfl⟩ := List.mem_map.mp hl
    obtain ⟨i, hi, rfl⟩ := List.mem_map.mp hv
    obtain ⟨z, hz⟩ := Configuration.exists_coord_mul_det hσ hs hi b
    have hz' : -coord (K := ℚ) (c.vector ℚ) σ.toFinset i (liftPoint c.dim ℚ b) *
        liftedDet c.dim (σ.map c.pointAt) = (-z : ℤ) := by
      rw [neg_mul, hz, Int.cast_neg]
    simp only [Tolerance.reaches, Quantity.atLeast_eq hx, Quantity.atLeast_eq hx']
    constructor
    · rw [decide_eq_decide, le_iff_nonpos hdet hz hq (hd σ hσ),
        le_iff_nonpos hdet hz hq' (hd' σ hσ)]
    · rw [decide_eq_decide, le_iff_nonpos hdet hz' hq (hd σ hσ),
        le_iff_nonpos hdet hz' hq' (hd' σ hσ)]

end Cell

end Separation

end Orthant
