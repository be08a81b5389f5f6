import Mathlib
import Orthant.Proofs.Family.Corners
import Orthant.Proofs.Polytope.Weights

/-! # Weights of the product

The lifted equations of the corners and the product have one normalized solution: each power has the
inverse of the degree as its weight, and the constant has what is left.
-/

namespace Orthant

open Finset Balance

variable {n : ℕ} {d : ℤ} {w : Vec}

def cornerWeights (n : ℕ) (d : ℤ) : Vec := List.replicate n (1 / (d : ℚ)) ++ [1 - (n : ℚ) / d, 1]

theorem take_eq_map_entry {w : Vec} {k : ℕ} (h : k ≤ w.length) :
    w.take k = (List.range k).map (entry w) := by
  refine List.ext_getElem (by simpa using h) fun i hi hi' => ?_
  have hi : i < k := by simpa using hi'
  rw [List.getElem_take, List.getElem_map, List.getElem_range, entry_eq_getElem (hi.trans_le h)]

section Balanced

variable (h : IsBalanced (matrixOf (corners n d) (ones n)) w) (hlast : w.getLastD 1 = 1)

include h

theorem length_of_isBalanced : w.length = n + 2 := by rw [h.length_eq, length_corners]

include hlast

theorem entry_last : entry w (n + 1) = 1 := by
  rw [← hlast, h.getLastD_eq, length_corners]

theorem getLastD_eq_one : w.getLastD 0 = 1 := by
  rw [h.getLastD_eq, length_corners, entry_last h hlast]

theorem sum_entries : ∑ i ∈ range (n + 1), entry w i = 1 := by
  have hsum := h.sum_eq
  rwa [getLastD_eq_one h hlast, length_corners,
    take_eq_map_entry (by rw [length_of_isBalanced h]; omega)] at hsum

theorem degree_mul_entry {k : ℕ} (hk : k < n) : (d : ℚ) * entry w k = 1 := by
  have hcoord := h.sum_coord (k := k) (by simpa using hk) (by rw [getD_ones hk]; decide)
  rw [getLastD_eq_one h hlast, getD_ones hk, length_corners,
    take_eq_map_entry (by rw [length_of_isBalanced h]; omega), corners, List.zip_map', List.map_map]
    at hcoord
  have hterms : ∀ i ∈ List.range (n + 1), ((fun p : List ℤ × ℚ => ((p.1.getD k 0 : ℤ) : ℚ) * p.2) ∘
      fun i => (corner n d i, entry w i)) i = if i = k then (d : ℚ) * entry w k else 0 := by
    intro i _
    rw [Function.comp_apply, getD_corner hk]
    split
    case isTrue hi => rw [hi]
    case isFalse => rw [Int.cast_zero, zero_mul]
  rw [List.map_congr_left hterms] at hcoord
  have hsum : ∑ i ∈ range (n + 1), (if i = k then (d : ℚ) * entry w k else 0) = 1 :=
    hcoord.trans (by norm_num)
  rwa [sum_ite_eq', if_pos (mem_range.mpr (by omega))] at hsum

theorem eq_cornerWeights (hd : d ≠ 0) : w = cornerWeights n d := by
  have hd : (d : ℚ) ≠ 0 := Int.cast_ne_zero.mpr hd
  have hpower : ∀ k < n, entry w k = 1 / d := fun k hk =>
    eq_div_of_mul_eq hd (by rw [mul_comm, degree_mul_entry h hlast hk])
  have hconstant : entry w n = 1 - n / d := by
    have hsum := sum_entries h hlast
    rw [sum_range_succ, sum_congr rfl fun k hk => hpower k (mem_range.mp hk)] at hsum
    simp only [sum_const, card_range, nsmul_eq_mul] at hsum
    linear_combination hsum
  have hlen := length_of_isBalanced h
  have htake := take_eq_map_entry (w := w) hlen.ge
  rw [List.take_of_length_le hlen.le, List.range_succ, List.range_succ] at htake
  rw [htake]
  simp only [List.map_append, List.map_cons, List.map_nil, hconstant, entry_last h hlast,
    cornerWeights, List.append_assoc, List.cons_append, List.nil_append]
  congr 1
  refine List.eq_replicate_iff.mpr ⟨by simp, fun x hx => ?_⟩
  obtain ⟨k, hk, rfl⟩ := List.mem_map.mp hx
  exact hpower k (List.mem_range.mp hk)

end Balanced

end Orthant
