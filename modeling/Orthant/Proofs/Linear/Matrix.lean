import Mathlib
import Orthant.Proofs.Linear.Inverse

/-! # Inverses as matrices

A square matrix is determined by its rows. Elimination tells whether its determinant is zero, and what
it finds otherwise are the rows of the inverse, so that a system of equations has one solution.
-/

namespace Orthant

open Matrix

/-- The rows of a matrix. -/
def rowsOf {n : ℕ} (M : Matrix (Fin n) (Fin n) ℚ) : List Vec :=
  List.ofFn fun i => List.ofFn (M i)

def toMatrix (n : ℕ) (m : List Vec) : Matrix (Fin n) (Fin n) ℚ := .of fun i j => cell m i j

variable {n : ℕ} {m inv : List Vec}

@[simp] theorem toMatrix_apply (i j : Fin n) : toMatrix n m i j = cell m i j := rfl

theorem hasShape_rowsOf (M : Matrix (Fin n) (Fin n) ℚ) : HasShape n n (rowsOf M) := by
  constructor
  · simp [rowsOf]
  · intro r hr
    rw [rowAt_eq_getElem (by simpa [rowsOf] using hr)]
    simp [rowsOf]

@[simp] theorem toMatrix_rowsOf (M : Matrix (Fin n) (Fin n) ℚ) : toMatrix n (rowsOf M) = M := by
  ext i j
  rw [toMatrix_apply, cell, rowAt_eq_getElem (by simp [rowsOf]), entry_eq_getElem (by simp [rowsOf])]
  simp [rowsOf]

theorem HasShape.rowsOf_toMatrix (h : HasShape n n m) : rowsOf (toMatrix n m) = m := by
  apply List.ext_getElem
  · simp [rowsOf, h.length]
  · intro r hr hm
    have hr : r < n := by simpa [rowsOf] using hr
    have hrow : (m[r]).length = n := rowAt_eq_getElem hm ▸ h.row r hr
    apply List.ext_getElem
    · simp [rowsOf, hrow]
    · intro c hc hc'
      simp [rowsOf, cell, rowAt_eq_getElem hm, entry_eq_getElem hc']

theorem HasShape.entry_applyRows (h : HasShape n n m) (v : Vec) (i : Fin n) :
    entry (applyRows m v) i = (toMatrix n m *ᵥ fun k => entry v k) i := by
  have hi : (i : ℕ) < m.length := h.length.symm ▸ i.isLt
  rw [entry_eq_getElem (by simpa [applyRows] using hi)]
  simp only [applyRows, List.getElem_map, ← rowAt_eq_getElem hi]
  rw [dot_eq_sum_of_le (h.row i i.isLt).le, Finset.sum_range]
  rfl

theorem entry_ext {u v : Vec} (hu : u.length = n) (hv : v.length = n)
    (h : ∀ i : Fin n, entry u i = entry v i) : u = v := by
  apply List.ext_getElem (hu.trans hv.symm)
  intro i hi hi'
  rw [← entry_eq_getElem hi, ← entry_eq_getElem hi']
  exact h ⟨i, hu ▸ hi⟩

/-! ## The inverse -/

theorem toMatrix_mul_eq_one_iff {a b : List Vec} : toMatrix n a * toMatrix n b = 1 ↔
    ∀ r < n, ∀ c < n, ∑ k ∈ Finset.range n, cell a r k * cell b k c = if r = c then 1 else 0 := by
  simp only [← Matrix.ext_iff, mul_apply, one_apply, toMatrix_apply, Fin.forall_iff, Fin.mk.injEq,
    ← Fin.sum_univ_eq_sum_range]

theorem toMatrix_invert (hm : HasShape n n m) (h : invert m = some inv) :
    HasShape n n inv ∧ toMatrix n inv * toMatrix n m = 1 := by
  obtain ⟨hshape, hleft⟩ := invert_eq_some hm h
  exact ⟨hshape, toMatrix_mul_eq_one_iff.mpr hleft⟩

theorem sum_cell_mul_invert (hm : HasShape n n m) (h : invert m = some inv) :
    ∀ r < n, ∀ c < n, ∑ k ∈ Finset.range n, cell m r k * cell inv k c = if r = c then 1 else 0 :=
  toMatrix_mul_eq_one_iff.mp (mul_eq_one_comm.mp (toMatrix_invert hm h).2)

theorem eq_zero_of_mulVec (hm : HasShape n n m) (h : invert m = some inv) {x : Fin n → ℚ}
    (hx : toMatrix n m *ᵥ x = 0) : x = 0 := by
  rw [← one_mulVec x, ← (toMatrix_invert hm h).2, ← mulVec_mulVec, hx, mulVec_zero]

theorem invert_eq_none_iff (hm : HasShape n n m) : invert m = none ↔ (toMatrix n m).det = 0 := by
  constructor
  · intro h
    obtain ⟨x, ⟨k, hk, hxk⟩, hx⟩ := invert_eq_none hm h
    refine exists_mulVec_eq_zero_iff.mp ⟨fun i => x i, fun h0 => hxk (congrFun h0 ⟨k, hk⟩), ?_⟩
    ext r
    have hrow := hx r r.isLt
    rwa [Finset.sum_range] at hrow
  · intro hdet
    cases h : invert m with
    | none => rfl
    | some inv =>
      have hone := congrArg det (toMatrix_invert hm h).2
      rw [det_mul, hdet, mul_zero, det_one] at hone
      exact absurd hone zero_ne_one

theorem invert_rowsOf (M : Matrix (Fin n) (Fin n) ℚ) :
    invert (rowsOf M) = if M.det = 0 then none else some (rowsOf M⁻¹) := by
  have hM := hasShape_rowsOf M
  split
  case isTrue hdet => exact (invert_eq_none_iff hM).mpr (by rwa [toMatrix_rowsOf])
  case isFalse hdet =>
    cases h : invert (rowsOf M) with
    | none => exact absurd ((invert_eq_none_iff hM).mp h) (by rwa [toMatrix_rowsOf])
    | some inv =>
      obtain ⟨hshape, hmul⟩ := toMatrix_invert hM h
      rw [toMatrix_rowsOf] at hmul
      rw [inv_eq_left_inv hmul, hshape.rowsOf_toMatrix]

theorem applyRows_eq_iff (hm : HasShape n n m) (h : invert m = some inv) {v b : Vec}
    (hv : v.length = n) (hb : b.length = n) : applyRows m v = b ↔ v = applyRows inv b := by
  obtain ⟨hshape, hleft⟩ := toMatrix_invert hm h
  have hright : toMatrix n m * toMatrix n inv = 1 := mul_eq_one_comm.mp hleft
  constructor
  · rintro rfl
    apply entry_ext hv (by simp [applyRows, hshape.length])
    intro i
    rw [hshape.entry_applyRows]
    simp only [hm.entry_applyRows, mulVec_mulVec, hleft, one_mulVec]
  · rintro rfl
    apply entry_ext (by simp [applyRows, hm.length]) hb
    intro i
    rw [hm.entry_applyRows]
    simp only [hshape.entry_applyRows, mulVec_mulVec, hright, one_mulVec]

end Orthant
