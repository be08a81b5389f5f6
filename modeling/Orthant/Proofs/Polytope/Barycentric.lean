import Mathlib
import Orthant.Proofs.Lattice.Grid
import Orthant.Proofs.Polytope.Weights

/-! # Balance points are barycentric coordinates

The products of the rows have an inverse only if no row depends on the others. The column of the
negative exponent is a combination of the others as soon as there is a solution, so the points span
their space, and the positive weights of a solution put the negative exponent inside their hull. Of
as many points as a simplex has, the weights are the only ones.
-/

namespace Orthant

open Finset

namespace Balance

/-! ## Independent rows -/

section Rows

variable {a inverse : List Vec} {w : Vec} {z : ℕ → ℚ} {width : ℕ}

theorem eq_zero_of_sum_rows (hrow : ∀ r ∈ a, r.length = width)
    (hinv : invert (gram a) = some inverse)
    (hz : ∀ j < width, ∑ r ∈ range a.length, cell a r j * z r = 0) : ∀ r < a.length, z r = 0 := by
  have hgram : ∀ k < a.length, ∑ c ∈ range a.length, cell (gram a) k c * z c = 0 := by
    intro k hk
    rw [sum_cell_gram hrow hk]
    exact sum_eq_zero fun j hj => by rw [hz j (mem_range.mp hj), mul_zero]
  have hzero : (toMatrix a.length (gram a)).mulVec (fun i : Fin a.length => z i) = 0 := by
    funext k
    have hk := hgram k k.isLt
    rwa [sum_range] at hk
  intro r hr
  exact congrFun (eq_zero_of_mulVec (gram_shape a) hinv hzero) ⟨r, hr⟩

/-- Multipliers that send all columns but the last to zero send the last one there, if some solution
uses it. -/
theorem sum_rows_last (hrow : ∀ r ∈ a, r.length = width + 1) (hw : ∀ r ∈ a, dot r w = 0)
    (hlast : entry w width ≠ 0)
    (hz : ∀ j < width, ∑ r ∈ range a.length, cell a r j * z r = 0) :
    ∑ r ∈ range a.length, cell a r width * z r = 0 := by
  have hsum : ∑ j ∈ range (width + 1), (∑ r ∈ range a.length, cell a r j * z r) * entry w j = 0 := by
    calc ∑ j ∈ range (width + 1), (∑ r ∈ range a.length, cell a r j * z r) * entry w j
        = ∑ r ∈ range a.length, z r * dot (rowAt a r) w := by
          simp only [sum_mul]
          rw [sum_comm]
          refine sum_congr rfl fun r hr => ?_
          rw [dot_eq_sum, rowAt_of_forall hrow (mem_range.mp hr), mul_sum]
          exact sum_congr rfl fun j _ => by simp only [cell]; ring
      _ = 0 := sum_eq_zero fun r hr => by
          rw [rowAt_of_forall (P := fun row => dot row w = 0) hw (mem_range.mp hr), mul_zero]
  rw [sum_range_succ, sum_eq_zero fun j hj => by rw [hz j (mem_range.mp hj), zero_mul],
    zero_add] at hsum
  exact (mul_eq_zero.mp hsum).resolve_right hlast

end Rows

variable {positive : List (List ℤ)} {b : List ℤ} {v w : Vec}

theorem affineSpan_eq_top_of_invert {inverse : List Vec}
    (hlen : ∀ p ∈ positive, p.length = b.length)
    (hinv : invert (gram ((matrixOf positive b).map toVec)) = some inverse)
    (hw : IsBalanced (matrixOf positive b) w) :
    affineSpan ℝ (pointSet b.length positive) = ⊤ := by
  set a := (matrixOf positive b).map toVec with ha
  have hal : a.length = b.length + 1 := by simp [ha, matrixOf]
  refine (affineSpan_eq_top_iff hlen).mpr fun x y h => ?_
  let z : ℕ → ℚ := fun r => r.casesOn (-y) fun k => if hk : k < b.length then x ⟨k, hk⟩ else 0
  have hz0 : z 0 = -y := rfl
  have hz : ∀ k : Fin b.length, z (k + 1) = x k := fun k => by simp [z]
  have hcol : ∀ j < positive.length, ∑ r ∈ range a.length, cell a r j * z r = 0 := by
    intro j hj
    rw [hal, sum_range_succ', cell_matrixOf_zero hj, sum_range]
    have hx := h _ (List.getElem_mem hj)
    have hcell : ∀ k : Fin b.length, cell a (k + 1) j * z (k + 1) =
        ((positive[j].getD k 0 : ℤ) : ℚ) * x k := fun k => by
      rw [cell_matrixOf_succ hj k.isLt, hz]
    rw [sum_congr rfl fun k _ => hcell k, hx, hz0, one_mul, add_neg_cancel]
  have hzero := eq_zero_of_sum_rows (a := a) length_of_mem_map_matrixOf hinv fun j hj => by
    rcases Nat.lt_succ_iff_lt_or_eq.mp hj with hj | rfl
    · exact hcol j hj
    · exact sum_rows_last length_of_mem_map_matrixOf (List.forall_mem_map.mpr hw.dot_eq_zero)
        hw.entry_last_pos.ne' hcol
  constructor
  · funext k
    rw [← hz k, Pi.zero_apply]
    exact hzero (k + 1) (by omega)
  · exact neg_eq_zero.mp (hzero 0 (by omega))

/-! ## Barycentric coordinates -/

/-- Weights that sum to 1 and combine points to `b`. -/
structure IsBarycentric (positive : List (List ℤ)) (b : List ℤ) (v : Vec) : Prop where
  length : v.length = positive.length
  sum_eq_one : v.sum = 1
  sum_coord : ∀ k < b.length,
    ((positive.zip v).map fun p => ((p.1.getD k 0 : ℤ) : ℚ) * p.2).sum = b.getD k 0

theorem sum_zip_eq (hv : v.length = positive.length) (f : List ℤ → ℚ) :
    ((positive.zip v).map fun p => f p.1 * p.2).sum =
      ∑ i : Fin positive.length, f positive[i] * entry v i := by
  rw [← List.sum_ofFn]
  congr 1
  refine List.ext_getElem (by simp [hv]) fun i hi _ => ?_
  have hi : i < v.length := by simpa [hv] using hi
  simp [entry_eq_getElem hi]

namespace IsBarycentric

theorem sum_entry (h : IsBarycentric positive b v) :
    ∑ i : Fin positive.length, ((entry v i : ℚ) : ℝ) = 1 := by
  have hone := sum_zip_eq h.length fun _ => 1
  simp only [one_mul] at hone
  rw [List.map_snd_zip h.length.le, h.sum_eq_one] at hone
  exact_mod_cast hone.symm

theorem sum_smul (h : IsBarycentric positive b v) :
    ∑ i : Fin positive.length, ((entry v i : ℚ) : ℝ) • realPoint b.length positive[i] =
      realPoint b.length b := by
  funext k
  have hk := h.sum_coord k k.isLt
  rw [sum_zip_eq h.length fun p => ((p.getD k 0 : ℤ) : ℚ)] at hk
  simp only [Finset.sum_apply, Pi.smul_apply, smul_eq_mul, realPoint]
  rw [sum_congr rfl fun i _ => mul_comm _ _]
  exact_mod_cast hk

/-- Positive weights put the point inside the hull. -/
theorem mem_interior (h : IsBarycentric positive b v)
    (hspan : affineSpan ℝ (pointSet b.length positive) = ⊤) (hpos : ∀ x ∈ v, 0 < x) :
    realPoint b.length b ∈ interior (convexHull ℝ (pointSet b.length positive)) := by
  rw [pointSet, ← range_getElem] at hspan ⊢
  rw [← h.sum_smul]
  refine mem_interior_of_pos_weights hspan (fun i => ?_) h.sum_entry
  have hi : (i : ℕ) < v.length := h.length.symm ▸ i.isLt
  rw [entry_eq_getElem hi]
  exact_mod_cast hpos _ (List.getElem_mem hi)

/-- The points of a simplex have only one combination to a point. -/
theorem unique {v' : Vec} (h : IsBarycentric positive b v) (h' : IsBarycentric positive b v')
    (hspan : affineSpan ℝ (pointSet b.length positive) = ⊤)
    (hsize : positive.length = b.length + 1) : v = v' := by
  rw [pointSet, ← range_getElem] at hspan
  have hind : AffineIndependent ℝ fun i : Fin positive.length => realPoint b.length positive[i] := by
    rw [affineIndependent_iff_finrank_vectorSpan_eq ℝ _ (by simpa using hsize)]
    rw [← direction_affineSpan, hspan, AffineSubspace.direction_top, finrank_top]
    simp
  have hzero := affineIndependent_iff.mp hind univ
    (fun i => ((entry v i : ℚ) : ℝ) - ((entry v' i : ℚ) : ℝ))
    (by rw [sum_sub_distrib, h.sum_entry, h'.sum_entry, sub_self])
    (by simp only [sub_smul, sum_sub_distrib]; rw [h.sum_smul, h'.sum_smul, sub_self])
  refine List.ext_getElem (h.length.trans h'.length.symm) fun i hi hi' => ?_
  have hz := hzero ⟨i, h.length ▸ hi⟩ (mem_univ _)
  rw [← entry_eq_getElem hi, ← entry_eq_getElem hi']
  exact_mod_cast sub_eq_zero.mp hz

end IsBarycentric

theorem IsBalanced.isWord_neg (h : IsBalanced (matrixOf positive b) w)
    (hpositive : ∀ p ∈ positive, ∀ x ∈ p, isWord x = true) (hb : ∀ x ∈ b, isWord x = true) {k : ℕ}
    (hk : k < b.length) : isWord (-(b.getD k 0)) = true := by
  have hword : isWord (b.getD k 0) = true := getD_of_forall hb rfl k
  by_contra hneg
  have hmin : b.getD k 0 = wordMin := by
    rw [isWord_iff] at hword hneg
    simp only [wordMin, wordMax] at *
    omega
  have hwrap : wrap (-wordMin) = wordMin := by decide
  have hrow := h.sum_coord_add_wrap hk
  rw [hmin, hwrap, h.getLastD_eq] at hrow
  have hle : ((positive.zip (w.take positive.length)).map
      fun p => ((p.1.getD k 0 : ℤ) : ℚ) * p.2).sum ≤ (wordMax : ℚ) * entry w positive.length := by
    calc ((positive.zip (w.take positive.length)).map
          fun p => ((p.1.getD k 0 : ℤ) : ℚ) * p.2).sum
        ≤ ((positive.zip (w.take positive.length)).map fun p => (wordMax : ℚ) * p.2).sum := by
          refine List.sum_le_sum fun p hp => ?_
          have hp' := List.of_mem_zip hp
          have hmax := (isWord_iff.mp (getD_of_forall (hpositive _ hp'.1) rfl k)).2
          have hpos := h.pos _ (List.mem_of_mem_take hp'.2)
          exact mul_le_mul_of_nonneg_right (by exact_mod_cast hmax) hpos.le
      _ = (wordMax : ℚ) * (w.take positive.length).sum := by
          rw [List.sum_map_mul_left, List.map_snd_zip (by simp)]
      _ = (wordMax : ℚ) * entry w positive.length := by rw [h.sum_eq, h.getLastD_eq]
  have hlast := h.entry_last_pos
  simp only [wordMin, wordMax] at hrow hle
  push_cast at hrow hle
  linarith

theorem IsBalanced.isBarycentric (h : IsBalanced (matrixOf positive b) w)
    (hpositive : ∀ p ∈ positive, ∀ x ∈ p, isWord x = true) (hb : ∀ x ∈ b, isWord x = true)
    (hlast : entry w positive.length = 1) : IsBarycentric positive b (w.take positive.length) := by
  refine ⟨by rw [List.length_take, h.length_eq]; omega, ?_, fun k hk => ?_⟩
  · rw [h.sum_eq, h.getLastD_eq, hlast]
  · rw [h.sum_coord hk (h.isWord_neg hpositive hb hk), h.getLastD_eq, hlast, mul_one]

/-! ## Points given as values -/

theorem matrixOfValues_eq_ok {m : List (List ℤ)} (hne : positive ≠ [])
    (h : matrixOfValues (.ofPoints positive) (.list (b.map .ofInt)) = .ok m) :
    m = matrixOf positive b ∧ (∀ p ∈ positive, p.length = b.length) ∧
      (∀ p ∈ positive, ∀ x ∈ p, isWord x = true) ∧ ∀ x ∈ b, isWord x = true := by
  obtain ⟨p, hp, h⟩ := bind_eq_ok.mp h
  obtain ⟨q, hq, h⟩ := bind_eq_ok.mp h
  obtain ⟨hrows, ⟨n, hlen⟩, hwords⟩ := toGrid_ofPoints_eq_ok hne hp
  obtain ⟨rfl, hb⟩ := toGrid_ofInts_eq_ok hq
  rw [matrix, hrows] at h
  dsimp only at h
  split at h
  case isTrue he =>
    refine ⟨(Except.ok.inj h).symm, fun r hr => ?_, hwords, hb⟩
    rw [hlen r hr, ← he]
    obtain ⟨a, positive, rfl⟩ := List.exists_cons_of_ne_nil hne
    exact (hlen a List.mem_cons_self).symm
  case isFalse => cases h

/-- The balance point of exponents given as values, from what a program proposes. -/
def pointWith (program : Program) (positive negative : Value) : Except Error Vec := do
  point (← matrixOfValues positive negative) (negative.leaves.map entryText) program

/-- A point that is returned is balanced and ends in 1, and its other entries are barycentric
coordinates over points that span their space. -/
theorem pointWith_eq_ok {program : Program} (hne : positive ≠ [])
    (h : pointWith program (.ofPoints positive) (.list (b.map .ofInt)) = .ok w) :
    (∀ p ∈ positive, p.length = b.length) ∧ affineSpan ℝ (pointSet b.length positive) = ⊤ ∧
      IsBalanced (matrixOf positive b) w ∧ entry w positive.length = 1 ∧
        IsBarycentric positive b (w.take positive.length) := by
  obtain ⟨m, hm, hw⟩ := bind_eq_ok.mp h
  obtain ⟨rfl, hlen, hwords, hb⟩ := matrixOfValues_eq_ok hne hm
  obtain ⟨inverse, -, hinv, -⟩ := point_eq_ok hw
  have hbal := isBalanced_of_point (fun r hr => by
    rw [length_of_mem_matrixOf r hr, length_headD_matrixOf]) hw
  have hlast : entry w positive.length = 1 := by
    rw [← hbal.getLastD_eq 1, getLastD_of_point hw]
  exact ⟨hlen, affineSpan_eq_top_of_invert hlen hinv hbal, hbal, hlast,
    hbal.isBarycentric hwords hb hlast⟩

/-- Whatever the program proposes, a point that is returned is exact: its positive entries are
barycentric coordinates of the negative exponent, which lies inside the hull of points that span
their space. Over the points of a simplex there is only one. An empty list is no list of points: it
is read as the one point of dimension zero. -/
theorem barycentric_of_pointWith {program : Program} (hne : positive ≠ [])
    (h : pointWith program (.ofPoints positive) (.list (b.map .ofInt)) = .ok w) :
    (∀ p ∈ positive, p.length = b.length) ∧
      (w.length = positive.length + 1 ∧ (∀ v ∈ w, 0 < v) ∧ entry w positive.length = 1 ∧
        IsBarycentric positive b (w.take positive.length)) ∧
      (affineSpan ℝ (pointSet b.length positive) = ⊤ ∧
        realPoint b.length b ∈ interior (convexHull ℝ (pointSet b.length positive))) ∧
      (positive.length = b.length + 1 →
        (∀ v, IsBarycentric positive b v → v = w.take positive.length) ∧
          ∀ program' w', pointWith program' (.ofPoints positive) (.list (b.map .ofInt)) = .ok w' →
            w' = w) := by
  obtain ⟨hlen, hspan, hbal, hlast, hbar⟩ := pointWith_eq_ok hne h
  refine ⟨hlen, ⟨hbal.length_eq, hbal.pos, hlast, hbar⟩, ⟨hspan, ?_⟩, fun hsize => ⟨?_, ?_⟩⟩
  · exact hbar.mem_interior hspan fun x hx => hbal.pos x (List.mem_of_mem_take hx)
  · exact fun v hv => hv.unique hbar hspan hsize
  · intro program' w' h'
    obtain ⟨-, -, hbal', hlast', hbar'⟩ := pointWith_eq_ok hne h'
    rw [← hbal'.take_concat, ← hbal.take_concat, hlast', hlast, hbar'.unique hbar hspan hsize]

/-- The program that proposes 1 in every place. -/
def Program.ones : Program := fun _ cols => some ⟨List.replicate cols 1, List.length_replicate⟩

/-- The weights of a triangle over its inner point are thirds, also from a proposal that solves no
equation. -/
theorem barycentric_of_pointWith_triangle :
    pointWith .ones (.ofPoints [[0, 0], [3, 0], [0, 3]]) (.list ([1, 1].map .ofInt)) =
        .ok [1 / 3, 1 / 3, 1 / 3, 1] ∧
      realPoint 2 [1, 1] ∈ interior (convexHull ℝ (pointSet 2 [[0, 0], [3, 0], [0, 3]])) ∧
      ∀ program w, pointWith program (.ofPoints [[0, 0], [3, 0], [0, 3]])
        (.list ([1, 1].map .ofInt)) = .ok w → w = [1 / 3, 1 / 3, 1 / 3, 1] := by
  have h : pointWith .ones (.ofPoints [[0, 0], [3, 0], [0, 3]]) (.list ([1, 1].map .ofInt)) =
      .ok [1 / 3, 1 / 3, 1 / 3, 1] := by
    decide_cbv
  obtain ⟨-, -, ⟨-, hint⟩, hunique⟩ := barycentric_of_pointWith (by simp) h
  exact ⟨h, hint, (hunique rfl).2⟩

end Balance

end Orthant
