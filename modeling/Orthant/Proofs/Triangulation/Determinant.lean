import Mathlib
import Orthant.Proofs.Triangulation.Regular

/-! # Determinants of cells

Whether a cell is a simplex is decided by an integer determinant, so it does not depend on the field.
The coordinates of integer points are multiples of its inverse.
-/

namespace Orthant

open Finset Lifting

def liftedMatrix (n : ℕ) (vs : List (List ℤ)) : Matrix (Fin (n + 1)) (Fin (n + 1)) ℤ :=
  Matrix.of fun r k => liftPoint n ℤ (vs.getD k []) r

/-- The determinant of the lifted points. -/
def liftedDet (n : ℕ) (vs : List (List ℤ)) : ℤ := (liftedMatrix n vs).det

theorem liftPoint_cast (n : ℕ) (K : Type*) [Ring K] (p : List ℤ) (r : Fin (n + 1)) :
    ((liftPoint n ℤ p r : ℤ) : K) = liftPoint n K p r := by
  rw [liftPoint, liftPoint]
  split <;> simp

namespace Configuration

variable {c : Configuration} {σ : Cell} {K : Type*} [Field K]

theorem col_liftedMatrix (hσ : σ.length = c.dim + 1) (k : Fin (c.dim + 1)) :
    ((liftedMatrix c.dim (σ.map c.pointAt)).map (Int.cast : ℤ → K)).col k =
      c.vector K (σ.get (k.cast hσ.symm)) := by
  funext r
  have hk : (k : ℕ) < σ.length := hσ.symm ▸ k.isLt
  simp only [Matrix.col_apply, Matrix.map_apply, liftedMatrix, Matrix.of_apply, liftPoint_cast,
    vector]
  congr 1
  simp [hk]

def vertexEquiv (hσ : σ.length = c.dim + 1) (hnd : σ.Nodup) : Fin (c.dim + 1) ≃ σ.toFinset :=
  (finCongr hσ.symm).trans ((hnd.getEquiv σ).trans
    (Equiv.subtypeEquivRight fun _ => List.mem_toFinset.symm))

theorem isSimplex_iff_det [CharZero K] (hσ : σ ∈ c.simplices) : IsSimplex K (c.vector K) σ.toFinset ↔
    liftedDet c.dim (σ.map c.pointAt) ≠ 0 := by
  obtain ⟨hp, hl, -⟩ := mem_simplices.mp hσ
  have hdet : (((liftedDet c.dim (σ.map c.pointAt) : ℤ) : K)) =
      ((liftedMatrix c.dim (σ.map c.pointAt)).map (Int.cast : ℤ → K)).det := by
    rw [liftedDet, Int.cast_det]
  have hli : LinearIndependent K (fun i : σ.toFinset => c.vector K i) ↔
      liftedDet c.dim (σ.map c.pointAt) ≠ 0 := by
    rw [← Int.cast_ne_zero (α := K), hdet, ← isUnit_iff_ne_zero, ← Matrix.isUnit_iff_isUnit_det,
      ← Matrix.linearIndependent_cols_iff_isUnit]
    refine (linearIndependent_equiv' (vertexEquiv hl hp.nodup) (funext fun k => ?_)).symm
    rw [col_liftedMatrix hl]
    rfl
  refine ⟨fun h => hli.mp h.linearIndependent, fun h => ⟨hli.mpr h, ?_⟩⟩
  rw [List.toFinset_card_of_nodup hp.nodup, hl]
  simp

theorem exists_coord_mul_det (hσ : σ ∈ c.simplices) (hs : IsSimplex ℚ (c.vector ℚ) σ.toFinset)
    {i : ℕ} (hi : i ∈ σ) (p : List ℤ) : ∃ z : ℤ,
      coord (K := ℚ) (c.vector ℚ) σ.toFinset i (liftPoint c.dim ℚ p) *
        liftedDet c.dim (σ.map c.pointAt) = z := by
  obtain ⟨hp, hl, -⟩ := mem_simplices.mp hσ
  set A := liftedMatrix c.dim (σ.map c.pointAt) with hA
  set z := A.cramer (liftPoint c.dim ℤ p) with hz
  have hcramer : ∑ k : Fin (c.dim + 1), (z k : ℚ) • c.vector ℚ (σ.get (k.cast hl.symm)) =
      (liftedDet c.dim (σ.map c.pointAt) : ℚ) • liftPoint c.dim ℚ p := by
    funext r
    have hrow := congrFun (Matrix.mulVec_cramer A (liftPoint c.dim ℤ p)) r
    have hcast := congrArg (Int.cast : ℤ → ℚ) hrow
    simp only [Matrix.mulVec, dotProduct, Pi.smul_apply, smul_eq_mul, Int.cast_sum, Int.cast_mul,
      liftPoint_cast] at hcast
    rw [Finset.sum_apply, Pi.smul_apply, smul_eq_mul, liftedDet, ← hcast]
    refine Finset.sum_congr rfl fun k _ => ?_
    rw [Pi.smul_apply, smul_eq_mul, mul_comm, ← col_liftedMatrix hl]
    rfl
  have hk := List.idxOf_lt_length_of_mem hi
  have hcoord := congrArg (coord (K := ℚ) (c.vector ℚ) σ.toFinset i) hcramer
  rw [map_sum, map_smul, smul_eq_mul] at hcoord
  refine ⟨z ⟨σ.idxOf i, hl ▸ hk⟩, ?_⟩
  rw [mul_comm, ← hcoord, Finset.sum_eq_single ⟨σ.idxOf i, hl ▸ hk⟩]
  · rw [map_smul, smul_eq_mul]
    simp only [List.get_eq_getElem, Fin.val_cast, List.getElem_idxOf]
    rw [hs.coord_self (List.mem_toFinset.mpr hi), mul_one]
  · intro k _ hne
    rw [map_smul, smul_eq_mul, hs.coord_other (List.mem_toFinset.mpr (List.get_mem ..)), mul_zero]
    intro he
    refine hne (Fin.ext ?_)
    simp [← he, hp.nodup.idxOf_getElem]
  · exact fun h => absurd (Finset.mem_univ _) h

end Configuration

end Orthant
