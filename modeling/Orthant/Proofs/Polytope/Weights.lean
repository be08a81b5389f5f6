import Mathlib
import Orthant.Proofs.Polytope.Balance
import Orthant.Proofs.Polytope.Hull

/-! # Balance points of interior exponents

An exponent inside the hull of points that span their space has a balance point: the lifted
equations have a solution of entries at least 1, the products of their rows have an inverse, and
projecting an exact solution does not move it.
-/

namespace Orthant

open Finset

namespace Balance

/-! ## Programs that solve -/

/-- A solution of the equations with all entries at least 1. -/
structure IsFeasible (m : List (List ℤ)) (y : List ℝ) : Prop where
  length : y.length = (m.headD []).length
  one_le : ∀ v ∈ y, 1 ≤ v
  sum_eq_zero : ∀ r ∈ m, ((r.zip y).map fun p => (p.1 : ℝ) * p.2).sum = 0

/-- The program proposes a vector exactly when there is a solution, and then it is one. -/
structure Program.SolvesAt (program : Program) (m : List (List ℤ)) : Prop where
  sound : ∀ y, program (m.map toVec) (m.headD []).length = some y →
    IsFeasible m (y.1.map Rat.cast)
  complete : (∃ y, IsFeasible m y) → (program (m.map toVec) (m.headD []).length).isSome

theorem Program.solvesAt_exact {m : List (List ℤ)} {y : Vec}
    (h : propose (m.map toVec) (m.headD []).length = some y) (hy : IsFeasible m (y.map Rat.cast)) :
    Program.exact.SolvesAt m := by
  have hexact : Program.exact (m.map toVec) (m.headD []).length =
      some ⟨y, length_of_propose h⟩ := by
    simpa [Program.exact] using h
  constructor
  · intro y' hy'
    obtain rfl := Option.some.inj (hexact.symm.trans hy')
    exact hy
  · intro _
    rw [hexact]
    rfl

theorem IsFeasible.dot_eq_zero {m : List (List ℤ)} {y : Vec} (h : IsFeasible m (y.map Rat.cast)) :
    ∀ r ∈ m, dot (toVec r) y = 0 := by
  intro r hr
  have hcast : ((dot (toVec r) y : ℚ) : ℝ) =
      ((r.zip (y.map Rat.cast)).map fun p => (p.1 : ℝ) * p.2).sum := by
    rw [dot_zip, toVec, List.zip_map_left, List.zip_map_right, List.map_map, List.map_map]
    refine (map_list_sum (Rat.castHom ℝ) _).trans ?_
    rw [List.map_map]
    congr 1
    exact List.map_congr_left fun p _ => by simp
  have hzero := hcast.trans (h.sum_eq_zero r hr)
  exact_mod_cast hzero

/-! ## The inverse of the products -/

section Gram

variable {a : List Vec} {x : ℕ → ℚ} {width : ℕ}

theorem sum_cell_gram (hrow : ∀ r ∈ a, r.length = width) {r : ℕ} (hr : r < a.length) :
    ∑ c ∈ range a.length, cell (gram a) r c * x c =
      ∑ j ∈ range width, cell a r j * ∑ c ∈ range a.length, cell a c j * x c := by
  simp only [mul_sum]
  rw [sum_comm]
  refine sum_congr rfl fun c hc => ?_
  rw [cell_gram hr (mem_range.mp hc), dot_eq_sum, rowAt_of_forall hrow hr, sum_mul]
  exact sum_congr rfl fun j _ => by simp only [cell]; ring

theorem sum_rows_eq_zero (hrow : ∀ r ∈ a, r.length = width)
    (hx : ∀ r < a.length, ∑ c ∈ range a.length, cell (gram a) r c * x c = 0) :
    ∀ j < width, ∑ r ∈ range a.length, cell a r j * x r = 0 := by
  have hsquare : ∑ j ∈ range width, (∑ r ∈ range a.length, cell a r j * x r) ^ 2 = 0 := by
    calc ∑ j ∈ range width, (∑ r ∈ range a.length, cell a r j * x r) ^ 2
        = ∑ r ∈ range a.length,
            x r * ∑ j ∈ range width, cell a r j * ∑ c ∈ range a.length, cell a c j * x c := by
          simp only [sq, sum_mul, mul_sum]
          rw [sum_comm]
          exact sum_congr rfl fun r _ => sum_congr rfl fun j _ => sum_congr rfl fun c _ => by ring
      _ = 0 := sum_eq_zero fun r hr => by
          rw [← sum_cell_gram hrow (mem_range.mp hr), hx r (mem_range.mp hr), mul_zero]
  intro j hj
  have := (sum_eq_zero_iff_of_nonneg fun j _ => sq_nonneg _).mp hsquare j (mem_range.mpr hj)
  exact pow_eq_zero_iff two_ne_zero |>.mp this

end Gram

variable {n : ℕ} {positive : List (List ℤ)} {b : List ℤ}

theorem cell_matrixOf_zero {j : ℕ} (hj : j < positive.length) :
    cell ((matrixOf positive b).map toVec) 0 j = 1 := by
  have hrow : rowAt ((matrixOf positive b).map toVec) 0 =
      toVec (List.replicate positive.length 1 ++ [-1]) := by
    simp [rowAt, matrixOf]
  rw [cell, hrow, toVec, List.map_append, entry_append_left (by simpa using hj),
    entry_eq_getElem (by simpa using hj)]
  simp

theorem cell_matrixOf_succ {j k : ℕ} (hj : j < positive.length) (hk : k < b.length) :
    cell ((matrixOf positive b).map toVec) (k + 1) j = ((positive[j].getD k 0 : ℤ) : ℚ) := by
  have hrow : rowAt ((matrixOf positive b).map toVec) (k + 1) =
      toVec (positive.map (fun a => a.getD k 0) ++ [wrap (-(b.getD k 0))]) := by
    simp [rowAt, matrixOf, hk]
  rw [cell, hrow, toVec, List.map_append, entry_append_left (by simpa using hj),
    entry_eq_getElem (by simpa using hj)]
  simp

theorem invert_gram_ne_none (hlen : ∀ a ∈ positive, a.length = n) (hb : b.length = n)
    (hspan : affineSpan ℝ (pointSet n positive) = ⊤) :
    invert (gram ((matrixOf positive b).map toVec)) ≠ none := by
  set a := (matrixOf positive b).map toVec with ha
  have hal : a.length = n + 1 := by simp [ha, matrixOf, hb]
  intro hnone
  obtain ⟨x, ⟨c, hc, hxc⟩, hx⟩ := invert_eq_none (gram_shape a) hnone
  have hzero := sum_rows_eq_zero length_of_mem_map_matrixOf hx
  have hconst : ∀ p ∈ positive, ∑ r : Fin n, ((p.getD r 0 : ℤ) : ℚ) * x (r + 1) = -x 0 := by
    intro p hp
    obtain ⟨j, hj, rfl⟩ := List.mem_iff_getElem.mp hp
    have hj' := hzero j (by omega)
    rw [hal, sum_range_succ', cell_matrixOf_zero hj, one_mul] at hj'
    rw [← eq_neg_iff_add_eq_zero] at hj'
    rw [← hj', sum_range]
    exact sum_congr rfl fun r _ => by rw [cell_matrixOf_succ hj (hb.symm ▸ r.isLt)]
  obtain ⟨htail, hhead⟩ :=
    (affineSpan_eq_top_iff hlen).mp hspan (fun r : Fin n => x (r + 1)) _ hconst
  cases c with
  | zero => exact hxc (neg_eq_zero.mp hhead)
  | succ c =>
    have hcn : c < n := by omega
    exact hxc (congrFun htail ⟨c, hcn⟩)

/-! ## The point -/

theorem project_eq_self {a inverse : List Vec} {y : Vec} (hy : ∀ r ∈ a, dot r y = 0) :
    project a inverse y = y := by
  have hzero : ∀ r : Vec, dot r (applyRows a y) = 0 := by
    intro r
    rw [dot_eq_sum]
    refine sum_eq_zero fun i _ => ?_
    by_cases hi : i < a.length
    · rw [entry_applyRows hi, rowAt_of_forall hy hi, mul_zero]
    · rw [entry_of_length_le (v := applyRows a y) (by simpa [applyRows] using hi), mul_zero]
  have hmult : ∀ k, entry (applyRows inverse (applyRows a y)) k = 0 := by
    intro k
    by_cases hk : k < inverse.length
    · rw [entry_applyRows hk, hzero]
    · exact entry_of_length_le (by simpa [applyRows] using hk)
  refine List.ext_getElem (length_project _ _ _) fun j hj hj' => ?_
  rw [← entry_eq_getElem hj, ← entry_eq_getElem hj', entry_project hj']
  simp [hmult]

theorem sum_zip_ofFn {m : ℕ} {l : List ℤ} (hl : l.length = m) (z : ℤ) (w : Fin m → ℝ) (K : ℝ) :
    (((l ++ [z]).zip (List.ofFn (fun i => K * w i) ++ [K])).map fun p => (p.1 : ℝ) * p.2).sum =
      K * (∑ i : Fin m, w i * (l.getD i 0 : ℤ) + z) := by
  have hfn : (l.zip (List.ofFn fun i => K * w i)).map (fun p => (p.1 : ℝ) * p.2) =
      List.ofFn fun i : Fin m => K * (w i * (l.getD i 0 : ℤ)) := by
    refine List.ext_getElem (by simp [hl]) fun i hi hi' => ?_
    have hi : i < l.length := by rw [hl]; simpa using hi'
    simp [hi]
    ring
  rw [List.zip_append (by simpa using hl), List.map_append, List.sum_append, hfn, List.sum_ofFn,
    ← mul_sum]
  simp [mul_add, mul_comm]

theorem exists_isFeasible (hb : b.length = n) (hword : ∀ k < n, isWord (-(b.getD k 0)) = true)
    (hint : realPoint n b ∈ interior (convexHull ℝ (pointSet n positive))) :
    ∃ y, IsFeasible (matrixOf positive b) y := by
  rw [pointSet, ← range_getElem] at hint
  obtain ⟨w, hpos, hone, hsum⟩ := exists_pos_weights hint
  set K : ℝ := 1 + ∑ i, (w i)⁻¹ with hK
  have hKone : 1 ≤ K := le_add_of_nonneg_right (sum_nonneg fun i _ => (inv_pos.mpr (hpos i)).le)
  have hKw : ∀ i, 1 ≤ K * w i := by
    intro i
    have hle : (w i)⁻¹ ≤ K := (single_le_sum (fun j _ => (inv_pos.mpr (hpos j)).le)
      (mem_univ i)).trans (le_add_of_nonneg_left zero_le_one)
    calc (1 : ℝ) = (w i)⁻¹ * w i := (inv_mul_cancel₀ (hpos i).ne').symm
      _ ≤ K * w i := mul_le_mul_of_nonneg_right hle (hpos i).le
  refine ⟨List.ofFn (fun i => K * w i) ++ [K], by rw [length_headD_matrixOf]; simp, ?_,
    fun r hr => ?_⟩
  · intro v hv
    rcases List.mem_append.mp hv with hv | hv
    · obtain ⟨i, rfl⟩ := (List.mem_ofFn ..).mp hv
      exact hKw i
    · rw [List.mem_singleton.mp hv]
      exact hKone
  · obtain ⟨i, hi, rfl⟩ := List.mem_map.mp hr
    cases i with
    | zero =>
      rw [sum_zip_ofFn (by simp)]
      simp [hone]
    | succ k =>
      have hk : k < n := by simpa [hb] using hi
      have hcoord : ∑ i, w i * ((positive[i].getD k 0 : ℤ) : ℝ) = (b.getD k 0 : ℤ) := by
        simpa only [Finset.sum_apply, Pi.smul_apply, smul_eq_mul, realPoint] using
          congrFun hsum ⟨k, hk⟩
      have hget : ∀ i : Fin positive.length, (positive.map fun a => a.getD k 0).getD i 0 =
          positive[i].getD k 0 := fun i => by simp
      dsimp only
      rw [sum_zip_ofFn (by simp), wrap_of_isWord (hword k hk)]
      simp only [hget, hcoord, Int.cast_neg, add_neg_cancel, mul_zero]

/-- An exponent inside the hull has a balance point, if the program solves its equations. -/
theorem point_returns (hlen : ∀ a ∈ positive, a.length = n) (hb : b.length = n)
    (hword : ∀ k < n, isWord (-(b.getD k 0)) = true)
    (hint : realPoint n b ∈ interior (convexHull ℝ (pointSet n positive))) {program : Program}
    (hprogram : program.SolvesAt (matrixOf positive b)) (entries : List String) :
    ∃ w, point (matrixOf positive b) entries program = .ok w := by
  have hspan : affineSpan ℝ (pointSet n positive) = ⊤ :=
    interior_convexHull_nonempty_iff_affineSpan_eq_top.mp ⟨_, hint⟩
  obtain ⟨y, hy⟩ := Option.isSome_iff_exists.mp
    (hprogram.complete (exists_isFeasible hb hword hint))
  have hfeasible := hprogram.sound y hy
  obtain ⟨inverse, hinv⟩ := Option.ne_none_iff_exists'.mp (invert_gram_ne_none hlen hb hspan)
  have hproject : project ((matrixOf positive b).map toVec) inverse y.1 = y.1 :=
    project_eq_self fun r hr => by
      obtain ⟨r', hr', rfl⟩ := List.mem_map.mp hr
      exact hfeasible.dot_eq_zero r' hr'
  have hpos : ¬ (y.1.any fun v => decide (v ≤ 0)) = true := by
    simp only [List.any_eq_true, decide_eq_true_eq, not_exists, not_and, not_le]
    intro v hv
    have hone := hfeasible.one_le v (List.mem_map_of_mem hv)
    exact_mod_cast zero_lt_one.trans_le hone
  refine ⟨y.1.map fun v => v / y.1.getLastD 1, ?_⟩
  simp only [point, pointFrom, hy, Option.map_some, hinv, hproject]
  rw [if_neg hpos]

end Balance

end Orthant
