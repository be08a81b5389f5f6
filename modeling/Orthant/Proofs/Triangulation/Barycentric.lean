import Mathlib
import Orthant.Proofs.Linear.Matrix
import Orthant.Proofs.Triangulation.Determinant

/-! # Barycentric coordinates

The matrix of a cell applied to numbers gives the point that they weight, with their sum behind it.
Its inverse, which elimination finds exactly if the cell is not degenerate, therefore takes a lifted
point to the only numbers that sum to 1 and weight the vertices to that point.
-/

namespace Orthant

namespace Configuration

variable {c : Configuration} {σ : Cell} {j : ℕ} {l : Vec}

/-- Numbers that sum to 1 and weight the vertices of a cell to a point. -/
structure IsBarycentric (c : Configuration) (σ : Cell) (j : ℕ) (l : Vec) : Prop where
  length : l.length = σ.length
  sum : l.sum = 1
  point : ∀ r < c.dim, ((l.zip σ).map fun p => p.1 * (((c.pointAt p.2).getD r 0 : ℤ) : ℚ)).sum =
    (((c.pointAt j).getD r 0 : ℤ) : ℚ)

theorem dot_replicate_one {n : ℕ} (h : l.length = n) : dot (List.replicate n 1) l = l.sum := by
  induction l generalizing n with
  | nil => cases n <;> simp_all [dot]
  | cons x l ih =>
    subst h
    rw [List.length_cons, List.replicate_succ, dot, ih rfl, one_mul, List.sum_cons]

theorem dot_map_zip (σ : List ℕ) (f : ℕ → ℚ) (l : Vec) :
    dot (σ.map f) l = ((l.zip σ).map fun p => p.1 * f p.2).sum := by
  induction σ generalizing l with
  | nil => simp [dot]
  | cons i σ ih =>
    cases l with
    | nil => simp [dot]
    | cons x l => simp [dot, ih, mul_comm]

theorem isBarycentric_iff (hσ : σ.length = c.dim + 1) (hj : (c.pointAt j).length = c.dim)
    (hl : l.length = c.dim + 1) :
    c.IsBarycentric σ j l ↔ applyRows (c.vertexMatrix σ) l = c.lifted j := by
  have hrows : applyRows (c.vertexMatrix σ) l =
      (List.range c.dim).map (fun r => ((l.zip σ).map fun p =>
        p.1 * (((c.pointAt p.2).getD r 0 : ℤ) : ℚ)).sum) ++ [l.sum] := by
    simp only [applyRows, vertexMatrix, List.map_append, List.map_map, List.map_singleton,
      dot_replicate_one hl]
    congr 2
    ext r
    exact dot_map_zip ..
  rw [hrows, lifted]
  constructor
  · rintro ⟨-, hsum, hpoint⟩
    rw [hsum]
    congr 1
    apply List.ext_getElem
    · simp [toVec, hj]
    · intro r hr hr'
      have hr : r < c.dim := by simpa using hr
      rw [List.getElem_map, List.getElem_range, hpoint r hr, ← entry_toVec, entry_eq_getElem hr']
  · intro h
    obtain ⟨hpoint, hsum⟩ := List.append_inj' h rfl
    refine ⟨hl.trans hσ.symm, by simpa using hsum, fun r hr => ?_⟩
    rw [← entry_toVec, ← hpoint, entry_map_range _ hr]

theorem toMatrix_vertexMatrix (hσ : σ.length = c.dim + 1) :
    toMatrix (c.dim + 1) (c.vertexMatrix σ) =
      (liftedMatrix c.dim (σ.map c.pointAt)).map (Int.cast : ℤ → ℚ) := by
  ext r k
  rw [toMatrix_apply, cell_vertexMatrix hσ, ← col_liftedMatrix hσ k]
  rfl

theorem inverse_eq_none_iff (hσ : σ.length = c.dim + 1) :
    c.inverse σ = none ↔ liftedDet c.dim (σ.map c.pointAt) = 0 := by
  rw [inverse, invert_eq_none_iff (hasShape_vertexMatrix hσ), toMatrix_vertexMatrix hσ,
    ← Int.cast_det, Int.cast_eq_zero, liftedDet]

/-- Elimination finds the inverse of a matrix unless the determinant is zero. So the barycentric
coordinates of a point are given unless the determinant of the cell is zero, and nothing else sums to
1 and weights the vertices to the point. -/
theorem invert_det_and_barycentric_unique (hlen : ∀ p ∈ c.points, p.length = c.dim) (σ : c.Proposed)
    (hj : j < c.size) :
    (∀ (n : ℕ) (M : Matrix (Fin n) (Fin n) ℚ), (invert (rowsOf M) = none ↔ M.det = 0) ∧
      ∀ inv, invert (rowsOf M) = some inv → ∃ N, inv = rowsOf N ∧ M * N = 1 ∧ N * M = 1) ∧
    (c.inverse σ = none ↔ liftedDet c.dim (σ.1.map c.pointAt) = 0) ∧
    (c.inverse σ ≠ none → (∃ l, c.barycentric σ j = .ok l) ∧
      ∀ l, c.barycentric σ j = .ok l ↔ c.IsBarycentric σ j l) := by
  obtain ⟨σ, hσ, -⟩ := σ
  have hpoint : (c.pointAt j).length = c.dim := by
    rw [pointAt, List.getD_eq_getElem _ _ hj]
    exact hlen _ (List.getElem_mem hj)
  refine ⟨fun n M => ⟨?decides, ?inverts⟩, inverse_eq_none_iff hσ, ?unique⟩
  case decides =>
    rw [invert_rowsOf]
    split <;> simp_all
  case inverts =>
    intro inv h
    rw [invert_rowsOf] at h
    split at h
    · cases h
    case isFalse hdet =>
      have hunit : IsUnit M.det := isUnit_iff_ne_zero.mpr hdet
      exact ⟨M⁻¹, (Option.some.inj h).symm, M.mul_nonsing_inv hunit, M.nonsing_inv_mul hunit⟩
  case unique =>
    intro hne
    obtain ⟨inv, h⟩ := Option.ne_none_iff_exists'.mp hne
    have hok : c.barycentric σ j = .ok (applyRows inv (c.lifted j)) := by
      rw [barycentric, h]
      rfl
    have hlifted : (c.lifted j).length = c.dim + 1 := by simp [lifted, toVec, hpoint]
    have hsolve := fun {l : Vec} (hl : l.length = c.dim + 1) =>
      applyRows_eq_iff (hasShape_vertexMatrix hσ) h hl hlifted
    refine ⟨⟨_, hok⟩, fun l => ?_⟩
    rw [hok, Except.ok.injEq]
    constructor
    · rintro rfl
      have hl : (applyRows inv (c.lifted j)).length = c.dim + 1 := by
        simp [applyRows, (toMatrix_invert (hasShape_vertexMatrix hσ) h).1.length]
      exact (isBarycentric_iff hσ hpoint hl).mpr ((hsolve hl).mpr rfl)
    · intro hl
      have hlen := hl.length.trans hσ
      exact ((hsolve hlen).mp ((isBarycentric_iff hσ hpoint hlen).mp hl)).symm

def sideMidpoint : Configuration := ⟨[[0, 0], [2, 0], [0, 2], [1, 1]], 2, []⟩

theorem invert_det_and_barycentric_unique_sideMidpoint : sideMidpoint.inverse [0, 1, 2] ≠ none ∧
    sideMidpoint.barycentric [0, 1, 2] 3 = .ok [0, 1 / 2, 1 / 2] ∧
    ∀ l, sideMidpoint.IsBarycentric [0, 1, 2] 3 l → l = [0, 1 / 2, 1 / 2] := by
  have hinv : sideMidpoint.inverse [0, 1, 2] ≠ none := by decide_cbv
  have hok : sideMidpoint.barycentric [0, 1, 2] 3 = .ok [0, 1 / 2, 1 / 2] := by decide_cbv
  obtain ⟨-, -, hunique⟩ := invert_det_and_barycentric_unique (c := sideMidpoint) (j := 3) (by decide)
    ⟨[0, 1, 2], by decide⟩ (by decide)
  refine ⟨hinv, hok, fun l hl => ?_⟩
  exact Except.ok.inj (((hunique hinv).2 l).mpr hl |>.symm.trans hok)

end Configuration

end Orthant
