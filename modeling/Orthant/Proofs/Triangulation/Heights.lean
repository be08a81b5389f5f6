import Mathlib
import Orthant.Proofs.Lifting.Generic
import Orthant.Proofs.Linear.Inverse
import Orthant.Proofs.Polytope.Facets
import Orthant.Proofs.Triangulation.Cells

/-! # Cells as simplices

A point of a configuration is the vector of its coordinates with 1 behind them. The matrix of a cell
has an inverse when these vectors form a basis; its rows are then the coordinates of the simplex, and
the heights above the cell are those of the lifted configuration.
-/

namespace Orthant

open Finset Lifting

namespace Configuration

variable {c : Configuration} {σ : Cell} {inv : List Vec} {w : Vec}

/-! ## Vectors -/

def vector (c : Configuration) (K : Type*) [Field K] (i : ℕ) : Fin (c.dim + 1) → K :=
  liftPoint c.dim K (c.pointAt i)

def placeSet (c : Configuration) : Finset ℕ := range c.size

/-- A configuration of points of one dimension that affinely span their space. -/
structure IsFull (c : Configuration) : Prop where
  length : ∀ p ∈ c.points, p.length = c.dim
  span : Submodule.span ℚ (c.vector ℚ '' c.placeSet) = ⊤

@[simp] theorem mem_placeSet {i : ℕ} : i ∈ c.placeSet ↔ i < c.size := by simp [placeSet]

def level (c : Configuration) (K : Type*) [Field K] : (Fin (c.dim + 1) → K) →ₗ[K] K :=
  LinearMap.proj (Fin.last c.dim)

theorem level_vector (K : Type*) [Field K] (i : ℕ) : c.level K (c.vector K i) = 1 := by
  simp [level, vector, liftPoint]

theorem level_pos (c : Configuration) (K : Type*) [Field K] [LinearOrder K]
    [IsStrictOrderedRing K] : ∀ i ∈ c.placeSet, 0 < c.level K (c.vector K i) := fun i _ => by
  rw [level_vector]
  exact one_pos

theorem IsFull.length_pointAt (h : c.IsFull) {i : ℕ} (hi : i < c.size) :
    (c.pointAt i).length = c.dim := by
  rw [pointAt, List.getD_eq_getElem _ _ hi]
  exact h.length _ (List.getElem_mem hi)

theorem entry_toVec_append_one {n : ℕ} {b : List ℤ} (hb : b.length = n) (r : Fin (n + 1)) :
    entry (toVec b ++ [1]) r = liftPoint n ℚ b r := by
  have hv : (toVec b).length = n := by simp [toVec, hb]
  by_cases hr : (r : ℕ) < n
  · have hr' : (r : ℕ) < b.length := hb.symm ▸ hr
    rw [entry_append_left (hv.symm ▸ hr), entry_eq_getElem (hv.symm ▸ hr)]
    simp [liftPoint, hr, toVec, hr']
  · obtain hr' : (r : ℕ) = (toVec b).length + 0 := by have := r.isLt; omega
    rw [liftPoint, if_neg hr, hr', entry_append_right]
    rfl

/-! ## The matrix of a cell -/

theorem hasShape_vertexMatrix (hσ : σ.length = c.dim + 1) :
    HasShape (c.dim + 1) (c.dim + 1) (c.vertexMatrix σ) := by
  refine ⟨by simp [vertexMatrix], fun r hr => ?_⟩
  refine rowAt_of_forall (P := fun row => row.length = c.dim + 1) (fun row h => ?_)
    (by simpa [vertexMatrix] using hr)
  rcases List.mem_append.mp h with h | h
  · obtain ⟨_, -, rfl⟩ := List.mem_map.mp h
    simpa using hσ
  · rw [List.mem_singleton.mp h, List.length_replicate]

theorem cell_vertexMatrix (hσ : σ.length = c.dim + 1) (r k : Fin (c.dim + 1)) :
    cell (c.vertexMatrix σ) r k = c.vector ℚ (σ.get (k.cast hσ.symm)) r := by
  have hk : (k : ℕ) < σ.length := hσ.symm ▸ k.isLt
  rw [cell, rowAt_eq_getElem (by simpa [vertexMatrix] using r.isLt)]
  by_cases hr : (r : ℕ) < c.dim
  · simp only [vertexMatrix]
    rw [List.getElem_append_left (by simpa using hr), entry_eq_getElem (by simpa using hk)]
    simp [vector, liftPoint, hr]
  · simp only [vertexMatrix]
    rw [List.getElem_append_right (by simpa using hr), entry_eq_getElem (by simpa using k.isLt)]
    simp [vector, liftPoint, hr]

def rowForm (c : Configuration) (inv : List Vec) (r : ℕ) : (Fin (c.dim + 1) → ℚ) →ₗ[ℚ] ℚ :=
  ∑ k : Fin (c.dim + 1), cell inv r k • LinearMap.proj k

theorem rowForm_apply (inv : List Vec) (r : ℕ) (x : Fin (c.dim + 1) → ℚ) :
    c.rowForm inv r x = ∑ k : Fin (c.dim + 1), cell inv r k * x k := by
  simp [rowForm]

theorem dot_map_map (l : List ℕ) (f g : ℕ → ℚ) :
    dot (l.map f) (l.map g) = (l.map fun i => f i * g i).sum := by
  induction l with
  | nil => rfl
  | cons a l ih => simp [dot, ih]

section Inverse

variable (hσ : σ.length = c.dim + 1)

include hσ

theorem rowForm_vertex (h : c.inverse σ = some inv) (r k : Fin (c.dim + 1)) :
    c.rowForm inv r (c.vector ℚ (σ.get (k.cast hσ.symm))) = if r = k then 1 else 0 := by
  obtain ⟨-, hinv⟩ := invert_eq_some (hasShape_vertexMatrix hσ) h
  have hrk := hinv r r.isLt k k.isLt
  rw [Finset.sum_range] at hrk
  simp only [cell_vertexMatrix hσ, Fin.val_inj] at hrk
  rw [rowForm_apply, hrk]

theorem nodup_of_inverse (h : c.inverse σ = some inv) : σ.Nodup := by
  rw [List.nodup_iff_injective_get]
  intro i j hij
  have hi := rowForm_vertex hσ h (i.cast hσ) (i.cast hσ)
  have hj := rowForm_vertex hσ h (i.cast hσ) (j.cast hσ)
  simp only [Fin.cast_cast, Fin.cast_eq_self, ← hij] at hi hj
  by_contra hne
  rw [hj, if_pos trivial, if_neg (by simpa [Fin.ext_iff] using hne)] at hi
  exact zero_ne_one hi

theorem isSimplex_of_inverse (h : c.inverse σ = some inv) :
    IsSimplex ℚ (c.vector ℚ) σ.toFinset := by
  have hnd := nodup_of_inverse hσ h
  refine isSimplex_of_dual ?_ (fun i => c.rowForm inv (σ.idxOf i)) fun i hi k hk => ?_
  · rw [List.toFinset_card_of_nodup hnd, hσ]
    simp
  · have hi' := List.idxOf_lt_length_of_mem (List.mem_toFinset.mp hi)
    have hk' := List.idxOf_lt_length_of_mem (List.mem_toFinset.mp hk)
    have := rowForm_vertex hσ h ⟨σ.idxOf i, hσ ▸ hi'⟩ ⟨σ.idxOf k, hσ ▸ hk'⟩
    simp only [List.get_eq_getElem, Fin.val_cast, List.getElem_idxOf, Fin.mk.injEq] at this
    rw [this]
    refine if_congr ⟨fun he => ?_, fun he => he ▸ rfl⟩ rfl rfl
    rw [← List.getElem_idxOf hk', ← List.getElem_idxOf hi']
    simp only [he]

theorem rowForm_eq_coord (h : c.inverse σ = some inv) (r : Fin (c.dim + 1)) :
    c.rowForm inv r = coord (c.vector ℚ) σ.toFinset (σ.get (r.cast hσ.symm)) := by
  have hs := isSimplex_of_inverse hσ h
  refine hs.ext_form fun i hi => ?_
  have hi' := List.idxOf_lt_length_of_mem (List.mem_toFinset.mp hi)
  have := rowForm_vertex hσ h r ⟨σ.idxOf i, hσ ▸ hi'⟩
  simp only [List.get_eq_getElem, Fin.val_cast, List.getElem_idxOf] at this
  rw [this, hs.coord_vertex hi]
  refine if_congr ⟨fun he => by simp [he], fun he => ?_⟩ rfl rfl
  refine Fin.ext ?_
  have hnd := nodup_of_inverse hσ h
  simp [he, hnd.idxOf_getElem]

theorem not_isSimplex_of_inverse (hnd : σ.Nodup) (h : c.inverse σ = none) :
    ¬ IsSimplex ℚ (c.vector ℚ) σ.toFinset := by
  intro hs
  obtain ⟨x, ⟨k, hk, hxk⟩, hx⟩ := invert_eq_none (hasShape_vertexMatrix hσ) h
  let f : Fin (c.dim + 1) → σ.toFinset := fun k =>
    ⟨σ.get (k.cast hσ.symm), List.mem_toFinset.mpr (List.get_mem ..)⟩
  have hf : Function.Injective f := fun i j hij => by
    simpa [Fin.ext_iff] using List.nodup_iff_injective_get.mp hnd (Subtype.mk.inj hij)
  have hli := hs.linearIndependent.comp f hf
  refine hxk (Fintype.linearIndependent_iff.mp hli (fun k => x k) ?_ ⟨k, hk⟩)
  funext r
  have hr := hx r r.isLt
  rw [Finset.sum_range] at hr
  simp only [cell_vertexMatrix hσ] at hr
  rw [Finset.sum_apply, Pi.zero_apply, ← hr]
  exact Finset.sum_congr rfl fun k _ => mul_comm _ _

theorem inverse_eq_some_iff (hnd : σ.Nodup) :
    (∃ inv, c.inverse σ = some inv) ↔ IsSimplex ℚ (c.vector ℚ) σ.toFinset := by
  refine ⟨fun ⟨inv, h⟩ => isSimplex_of_inverse hσ h, fun hs => ?_⟩
  cases h : c.inverse σ with
  | none => exact absurd hs (not_isSimplex_of_inverse hσ hnd h)
  | some inv => exact ⟨inv, rfl⟩

/-! ## Coordinates and heights -/

theorem applyRows_inverse (h : c.inverse σ = some inv) {b : List ℤ} (hb : b.length = c.dim) :
    applyRows inv (toVec b ++ [1]) =
      σ.map fun i => coord (c.vector ℚ) σ.toFinset i (liftPoint c.dim ℚ b) := by
  obtain ⟨hshape, -⟩ := invert_eq_some (hasShape_vertexMatrix hσ) h
  refine List.ext_getElem (by simp [applyRows, hshape.length, hσ]) ?_
  intro r hr hr'
  have hrσ : r < σ.length := by simpa using hr'
  have hrd : r < c.dim + 1 := hσ ▸ hrσ
  have hinv : r < inv.length := hshape.length.symm ▸ hrd
  have hrow := rowForm_eq_coord hσ h ⟨r, hrd⟩
  simp only [List.get_eq_getElem, Fin.val_cast] at hrow
  rw [List.getElem_map, ← hrow, rowForm_apply]
  simp only [applyRows, List.getElem_map, ← rowAt_eq_getElem hinv]
  rw [dot_eq_sum_of_le (hshape.row r hrd).le, Finset.sum_range]
  exact Finset.sum_congr rfl fun k _ => by rw [entry_toVec_append_one hb, cell]

theorem coordinatesBy_eq (hc : c.IsFull) (h : c.inverse σ = some inv) {j : ℕ}
    (hj : j < c.size) : c.coordinatesBy inv j =
      σ.map fun i => coord (c.vector ℚ) σ.toFinset i (c.vector ℚ j) :=
  applyRows_inverse hσ h (hc.length_pointAt hj)

theorem heightBy_eq (hc : c.IsFull) (h : c.inverse σ = some inv) {j : ℕ} (hj : j < c.size) :
    c.heightBy inv σ j w = height (c.vector ℚ) σ.toFinset j (entry w) := by
  have hs := isSimplex_of_inverse hσ h
  rw [heightBy, coordinatesBy_eq hσ hc h hj, dot_map_map, height, hs.plane_eq_sum,
    List.sum_toFinset _ (nodup_of_inverse hσ h)]

end Inverse

end Configuration

end Orthant
