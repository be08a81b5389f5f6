import Mathlib
import Orthant.Polytope.Balance
import Orthant.Proofs.Linear.Matrix
import Orthant.Proofs.Polytope.Facets

/-! # Balance points are exact

Whatever vector is proposed, projecting it with the inverse of the products of rows gives a solution
of the lifted equations, and dividing by its last entry keeps it one.
-/

namespace Orthant

open Finset

namespace Balance

variable {a inverse : List Vec} {y : Vec}

/-! ## The projection -/

theorem entry_zipWith_sub {u v : Vec} (h : u.length = v.length) (i : ℕ) :
    entry (List.zipWith (· - ·) u v) i = entry u i - entry v i := by
  have hsub : List.zipWith (· - ·) u v = subScaled u 1 v := by simp [subScaled]
  rw [hsub, entry_subScaled h, one_mul]

theorem entry_applyRows {i : ℕ} (h : i < a.length) (v : Vec) :
    entry (applyRows a v) i = dot (rowAt a i) v := by
  rw [entry_eq_getElem (by simpa [applyRows] using h), rowAt_eq_getElem h]
  simp [applyRows]

theorem entry_columns {i j : ℕ} {width : ℕ} (hj : j < width) (hi : i < a.length) :
    entry ((columns a width).getD j []) i = cell a i j := by
  simp only [columns, List.getD_eq_getElem?_getD, List.getElem?_map, List.getElem?_range hj,
    Option.map_some, Option.getD_some]
  rw [entry_eq_getElem (by simpa using hi)]
  simp [cell, rowAt_eq_getElem hi]

theorem gram_shape (a : List Vec) : HasShape a.length a.length (gram a) := by
  refine ⟨by simp [gram], fun r hr => ?_⟩
  rw [rowAt_eq_getElem (by simpa [gram] using hr)]
  simp [gram]

theorem cell_gram {i k : ℕ} (hi : i < a.length) (hk : k < a.length) :
    cell (gram a) i k = dot (rowAt a i) (rowAt a k) := by
  rw [cell, rowAt_eq_getElem (by simpa [gram] using hi), entry_eq_getElem (by simpa [gram] using hk),
    rowAt_eq_getElem hi, rowAt_eq_getElem hk]
  simp [gram]

theorem length_project (a inverse : List Vec) (y : Vec) :
    (project a inverse y).length = y.length := by
  simp [project, columns]

theorem entry_project {j : ℕ} (hj : j < y.length) : entry (project a inverse y) j =
    entry y j - ∑ k ∈ range a.length,
      cell a k j * entry (applyRows inverse (applyRows a y)) k := by
  rw [project, entry_zipWith_sub (by simp [columns])]
  congr 1
  rw [entry_eq_getElem (by simpa [columns] using hj), List.getElem_map, dot_eq_sum]
  have hj' : j < (columns a y.length).length := by simpa [columns] using hj
  have hget : (columns a y.length)[j] = (columns a y.length).getD j [] := by simp [columns, hj]
  rw [hget]
  have hcol : ((columns a y.length).getD j []).length = a.length := by
    simp [columns, hj]
  rw [hcol]
  exact sum_congr rfl fun k hk => by rw [entry_columns hj (mem_range.mp hk)]

theorem dot_rowAt (hrow : ∀ r ∈ a, r.length = y.length) {i : ℕ} (hi : i < a.length) (v : Vec) :
    dot (rowAt a i) v = ∑ j ∈ range y.length, cell a i j * entry v j := by
  rw [dot_eq_sum, rowAt_of_forall hrow hi]
  rfl

theorem dot_rowAt_project (hrow : ∀ r ∈ a, r.length = y.length) {i : ℕ} (hi : i < a.length) :
    dot (rowAt a i) (project a inverse y) = dot (rowAt a i) y -
      ∑ k ∈ range a.length, cell (gram a) i k * entry (applyRows inverse (applyRows a y)) k := by
  set m := applyRows inverse (applyRows a y) with hm
  have hgram : ∀ k ∈ range a.length, cell (gram a) i k * entry m k =
      ∑ j ∈ range y.length, cell a i j * (cell a k j * entry m k) := by
    intro k hk
    rw [cell_gram hi (mem_range.mp hk), dot_rowAt hrow hi, sum_mul]
    exact sum_congr rfl fun j _ => by rw [cell, cell, mul_assoc]
  rw [sum_congr rfl hgram, sum_comm, dot_rowAt hrow hi, dot_rowAt hrow hi, ← sum_sub_distrib]
  refine sum_congr rfl fun j hj => ?_
  rw [entry_project (mem_range.mp hj), ← hm, mul_sub, mul_sum]

theorem sum_gram_multipliers (hinv : invert (gram a) = some inverse) {i : ℕ} (hi : i < a.length) :
    ∑ k ∈ range a.length, cell (gram a) i k * entry (applyRows inverse (applyRows a y)) k =
      dot (rowAt a i) y := by
  obtain ⟨hshape, -⟩ := invert_eq_some (gram_shape a) hinv
  have hright := sum_cell_mul_invert (gram_shape a) hinv
  have hmult : ∀ k ∈ range a.length,
      cell (gram a) i k * entry (applyRows inverse (applyRows a y)) k =
        ∑ l ∈ range a.length, cell (gram a) i k * cell inverse k l * dot (rowAt a l) y := by
    intro k hk
    have hk := mem_range.mp hk
    rw [entry_applyRows (by rwa [hshape.length]), dot_eq_sum, hshape.row k hk, mul_sum]
    refine sum_congr rfl fun l hl => ?_
    rw [entry_applyRows (mem_range.mp hl), ← mul_assoc]
    rfl
  have hunit : ∀ l ∈ range a.length,
      ∑ k ∈ range a.length, cell (gram a) i k * cell inverse k l * dot (rowAt a l) y =
        (if i = l then 1 else 0) * dot (rowAt a l) y := by
    intro l hl
    rw [← sum_mul, hright i hi l (mem_range.mp hl)]
  rw [sum_congr rfl hmult, sum_comm, sum_congr rfl hunit]
  simp [hi]

theorem dot_project (hrow : ∀ r ∈ a, r.length = y.length) (hinv : invert (gram a) = some inverse)
    {r : Vec} (hr : r ∈ a) : dot r (project a inverse y) = 0 := by
  obtain ⟨i, hi, rfl⟩ := List.mem_iff_getElem.mp hr
  rw [← rowAt_eq_getElem hi, dot_rowAt_project hrow hi, sum_gram_multipliers hinv hi, sub_self]

/-! ## The point -/

theorem dot_map_div (r v : Vec) (d : ℚ) : dot r (v.map fun x => x / d) = dot r v / d := by
  induction r generalizing v with
  | nil => simp [dot]
  | cons x r ih =>
    cases v with
    | nil => simp [dot]
    | cons z v => simp only [List.map_cons, dot, ih]; ring

/-- A vector with a positive entry for each column that solves all equations. -/
structure IsBalanced (m : List (List ℤ)) (w : Vec) : Prop where
  length : w.length = (m.headD []).length
  pos : ∀ v ∈ w, 0 < v
  dot_eq_zero : ∀ r ∈ m, dot (toVec r) w = 0

theorem getLastD_pos (h : ∀ v ∈ y, 0 < v) : 0 < y.getLastD 1 := by
  rw [List.getLastD_eq_getLast?]
  cases hlast : y.getLast? with
  | none => exact one_pos
  | some v => exact h v (List.mem_of_getLast? hlast)

/-- What has been computed when a point is returned: an inverse of the products of rows, and a
positive projection of what was proposed. -/
theorem point_eq_ok {m : List (List ℤ)} {entries : List String} {program : Program} {w : Vec}
    (h : point m entries program = .ok w) :
    ∃ inverse y, invert (gram (m.map toVec)) = some inverse ∧ y.length = (m.headD []).length ∧
      (∀ v ∈ project (m.map toVec) inverse y, 0 < v) ∧
      w = (project (m.map toVec) inverse y).map
        (· / (project (m.map toVec) inverse y).getLastD 1) := by
  simp only [point, pointFrom] at h
  cases hp : program (m.map toVec) (m.headD []).length with
  | none => simp [hp] at h
  | some y =>
    obtain ⟨y, hy⟩ := y
    simp only [hp, Option.map_some] at h
    split at h
    · cases h
    case h_2 inverse hinv =>
      split at h
      · cases h
      case isFalse hpos =>
        exact ⟨inverse, y, hinv, hy, by simpa using hpos, (Except.ok.inj h).symm⟩

theorem isBalanced_of_point {m : List (List ℤ)} {entries : List String} {program : Program} {w : Vec}
    (hrow : ∀ r ∈ m, r.length = (m.headD []).length) (h : point m entries program = .ok w) :
    IsBalanced m w := by
  obtain ⟨inverse, y, hinv, hy, hpos, rfl⟩ := point_eq_ok h
  refine ⟨by simp [length_project, hy], fun v hv => ?_, fun r hr => ?_⟩
  · obtain ⟨u, hu, rfl⟩ := List.mem_map.mp hv
    exact div_pos (hpos u hu) (getLastD_pos hpos)
  · rw [dot_map_div, dot_project (fun r hr => ?_) hinv (List.mem_map_of_mem hr), zero_div]
    obtain ⟨r', hr', rfl⟩ := List.mem_map.mp hr
    rw [toVec, List.length_map, hrow r' hr', hy]

theorem getLastD_of_point {m : List (List ℤ)} {entries : List String} {program : Program} {w : Vec}
    (h : point m entries program = .ok w) : w.getLastD 1 = 1 := by
  obtain ⟨inverse, y, -, -, hpos, rfl⟩ := point_eq_ok h
  rw [List.getLastD_eq_getLast?, List.getLast?_map]
  cases hlast : (project (m.map toVec) inverse y).getLast? with
  | none => rfl
  | some v =>
    simp only [Option.map_some, Option.getD_some, List.getLastD_eq_getLast?, hlast]
    exact div_self (hpos v (List.mem_of_getLast? hlast)).ne'

/-! ## Lifted matrices -/

section Lifted

variable {positive : List (List ℤ)} {negative : List ℤ} {w : Vec}

theorem length_of_mem_matrixOf :
    ∀ r ∈ matrixOf positive negative, r.length = positive.length + 1 := by
  intro r hr
  obtain ⟨i, -, rfl⟩ := List.mem_map.mp hr
  cases i <;> simp

theorem length_of_mem_map_matrixOf :
    ∀ r ∈ (matrixOf positive negative).map toVec, r.length = positive.length + 1 := by
  intro r hr
  obtain ⟨r', hr', rfl⟩ := List.mem_map.mp hr
  rw [toVec, List.length_map, length_of_mem_matrixOf r' hr']

@[simp] theorem length_headD_matrixOf :
    ((matrixOf positive negative).headD []).length = positive.length + 1 := by
  simp [matrixOf, List.range_succ_eq_map]

theorem dot_zip (u v : Vec) : dot u v = ((u.zip v).map fun p => p.1 * p.2).sum := by
  induction u generalizing v with
  | nil => simp [dot]
  | cons x u ih => cases v <;> simp [dot, ih]

theorem dot_concat {u : Vec} {x : ℚ} (h : w.length = u.length + 1) :
    dot (u ++ [x]) w = dot u (w.take u.length) + x * w.getLastD 0 := by
  obtain ⟨v, z, rfl⟩ : ∃ v z, w = v ++ [z] :=
    ⟨_, _, (List.dropLast_concat_getLast (List.ne_nil_of_length_eq_add_one h)).symm⟩
  have hl : u.length = v.length := by simpa using h.symm
  rw [dot_zip, List.zip_append hl, List.map_append, List.sum_append, ← dot_zip, hl]
  simp

theorem IsBalanced.length_eq (h : IsBalanced (matrixOf positive negative) w) :
    w.length = positive.length + 1 := by
  rw [h.length, length_headD_matrixOf]

theorem IsBalanced.getLastD_eq (h : IsBalanced (matrixOf positive negative) w) (x : ℚ) :
    w.getLastD x = entry w positive.length := by
  have hl : positive.length < w.length := by rw [h.length_eq]; omega
  rw [List.getLastD_eq_getLast?, List.getLast?_eq_getElem?, h.length_eq, Nat.add_sub_cancel,
    List.getElem?_eq_getElem hl, entry_eq_getElem hl, Option.getD_some]

theorem IsBalanced.entry_last_pos (h : IsBalanced (matrixOf positive negative) w) :
    0 < entry w positive.length := by
  have hl : positive.length < w.length := by rw [h.length_eq]; omega
  rw [entry_eq_getElem hl]
  exact h.pos _ (List.getElem_mem hl)

theorem IsBalanced.take_concat (h : IsBalanced (matrixOf positive negative) w) :
    w.take positive.length ++ [entry w positive.length] = w := by
  have hl : positive.length < w.length := by rw [h.length_eq]; omega
  rw [entry_eq_getElem hl, List.take_append_getElem hl, List.take_of_length_le h.length_eq.le]

/-- The weights of the positive exponents sum to that of the negative one. -/
theorem IsBalanced.sum_eq (h : IsBalanced (matrixOf positive negative) w) :
    (w.take positive.length).sum = w.getLastD 0 := by
  have hrow := h.dot_eq_zero (List.replicate positive.length 1 ++ [-1])
    (List.mem_map.mpr ⟨0, by simp, rfl⟩)
  have hones : ∀ v : Vec, dot (List.replicate v.length 1) v = v.sum := by
    intro v
    induction v with
    | nil => rfl
    | cons x v ih => simp [List.replicate_succ, dot, ih]
  have hlen : (w.take positive.length).length = positive.length := by
    rw [List.length_take, h.length_eq]; omega
  have hvec : toVec (List.replicate positive.length 1 ++ [-1]) =
      List.replicate positive.length 1 ++ [-1] := by
    simp [toVec]
  rw [hvec, dot_concat (by simpa using h.length_eq)] at hrow
  have := hones (w.take positive.length)
  rw [hlen] at this
  rw [List.length_replicate, this] at hrow
  linarith

theorem IsBalanced.sum_coord_add_wrap (h : IsBalanced (matrixOf positive negative) w) {k : ℕ}
    (hk : k < negative.length) :
    ((positive.zip (w.take positive.length)).map fun p => ((p.1.getD k 0 : ℤ) : ℚ) * p.2).sum +
      ((wrap (-(negative.getD k 0)) : ℤ) : ℚ) * w.getLastD 0 = 0 := by
  have hrow := h.dot_eq_zero (positive.map (fun a => a.getD k 0) ++ [wrap (-(negative.getD k 0))])
    (List.mem_map.mpr ⟨k + 1, by simpa using hk, rfl⟩)
  have hvec : toVec (positive.map (fun a => a.getD k 0) ++ [wrap (-(negative.getD k 0))]) =
      positive.map (fun a => ((a.getD k 0 : ℤ) : ℚ)) ++ [((wrap (-(negative.getD k 0)) : ℤ) : ℚ)] := by
    simp only [toVec, List.map_append, List.map_map, List.map_cons, List.map_nil]
    rfl
  rw [hvec, dot_concat (by simpa using h.length_eq), dot_zip, List.length_map, List.zip_map_left,
    List.map_map] at hrow
  exact hrow

/-- The weighted sum of the positive exponents is the negative one times its weight. -/
theorem IsBalanced.sum_coord (h : IsBalanced (matrixOf positive negative) w) {k : ℕ}
    (hk : k < negative.length) (hword : isWord (-(negative.getD k 0))) :
    ((positive.zip (w.take positive.length)).map fun p => ((p.1.getD k 0 : ℤ) : ℚ) * p.2).sum =
      ((negative.getD k 0 : ℤ) : ℚ) * w.getLastD 0 := by
  have hrow := h.sum_coord_add_wrap hk
  rw [wrap_of_isWord hword] at hrow
  push_cast at hrow
  linarith

end Lifted

end Balance

end Orthant
