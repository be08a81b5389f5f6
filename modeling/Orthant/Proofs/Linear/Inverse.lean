import Mathlib
import Orthant.Linear.Inverse
import Orthant.Proofs.Linear.Vector

/-! # Correctness of elimination

The elimination beside the identity keeps two facts: the left half of each row is its right half
applied to the matrix, and a vector that all rows send to zero is sent to zero by the matrix. So an
inverse that is found is one, and a column without pivot gives a vector of the kernel.
-/

namespace Orthant

open Finset

/-! ## Rows -/

def cell (a : List Vec) (r c : ℕ) : ℚ := entry (rowAt a r) c

/-- A matrix of `n` rows of a width. -/
structure HasShape (n width : ℕ) (a : List Vec) : Prop where
  length : a.length = n
  row : ∀ r < n, (rowAt a r).length = width

theorem rowAt_eq_getElem {a : List Vec} {r : ℕ} (h : r < a.length) : rowAt a r = a[r] := by
  simp [rowAt, h]

theorem rowAt_of_forall {P : Vec → Prop} {a : List Vec} (h : ∀ row ∈ a, P row) {r : ℕ}
    (hr : r < a.length) : P (rowAt a r) := by
  rw [rowAt_eq_getElem hr]
  exact h _ (List.getElem_mem hr)

section Step

variable {n width : ℕ} {a : List Vec}

theorem HasShape.swap (h : HasShape n width a) {i j : ℕ} (hi : i < n) (hj : j < n) :
    HasShape n width (swapRows a i j) ∧
      ∀ r < n, rowAt (swapRows a i j) r = rowAt a (Equiv.swap i j r) := by
  have hrow : ∀ r < n, rowAt (swapRows a i j) r = rowAt a (Equiv.swap i j r) := by
    intro r hr
    rw [rowAt_eq_getElem (by simpa [swapRows, h.length] using hr)]
    simp only [swapRows, List.getElem_set]
    rcases eq_or_ne j r with rfl | hjr
    · simp
    · rcases eq_or_ne i r with rfl | hir
      · simp [hjr]
      · simp [hjr, hir, Equiv.swap_apply_of_ne_of_ne hir.symm hjr.symm, rowAt_eq_getElem,
          h.length, hr]
  refine ⟨⟨by simp [swapRows, h.length], fun r hr => ?_⟩, hrow⟩
  rw [hrow r hr]
  refine h.row _ ?_
  rcases eq_or_ne r i with rfl | hri
  · simpa using hj
  · rcases eq_or_ne r j with rfl | hrj
    · simpa using hi
    · rwa [Equiv.swap_apply_of_ne_of_ne hri hrj]

/-- The entries after a column has been cleared by a row with the same width. -/
theorem HasShape.clear (h : HasShape n width a) {pivot : Vec} (hp : pivot.length = width)
    (col : ℕ) : HasShape n width (clearColumn a col pivot) ∧
      ∀ r < n, ∀ c, cell (clearColumn a col pivot) r c =
        if r = col then entry pivot c else cell a r c - cell a r col * entry pivot c := by
  have hrow : ∀ r < n, rowAt (clearColumn a col pivot) r =
      if r = col then pivot else if entry (rowAt a r) col = 0 then rowAt a r
        else subScaled (rowAt a r) (entry (rowAt a r) col) pivot := by
    intro r hr
    rw [rowAt_eq_getElem (by simpa [clearColumn, h.length] using hr),
      rowAt_eq_getElem (by rwa [h.length])]
    simp [clearColumn]
  refine ⟨⟨by simp [clearColumn, h.length], fun r hr => ?_⟩, fun r hr c => ?_⟩
  · rw [hrow r hr]
    split
    · exact hp
    · split
      · exact h.row r hr
      · rw [length_subScaled, h.row r hr, hp, min_self]
  · rw [cell, hrow r hr]
    split
    · rfl
    · split
      case isTrue h0 => rw [cell, cell, h0, zero_mul, sub_zero]
      case isFalse => rw [entry_subScaled (by rw [h.row r hr, hp])]; rfl

/-- The rows `col` and `p` are swapped, and the first of them clears its column. -/
structure IsCleared (n col p : ℕ) (a a' : List Vec) : Prop where
  col_lt : col < n
  pivot_lt : p < n
  col_le : col ≤ p
  pivot_ne_zero : cell a p col ≠ 0
  cell_eq : ∀ r < n, ∀ c, cell a' r c = if r = col then cell a p c / cell a p col
    else cell a (Equiv.swap col p r) c -
      cell a (Equiv.swap col p r) col * (cell a p c / cell a p col)

theorem eliminateColumn_eq_some (h : HasShape n width a) {col : ℕ} (hcol : col < n) {a' : List Vec}
    (he : eliminateColumn a col = some a') :
    HasShape n width a' ∧ ∃ p, IsCleared n col p a a' := by
  simp only [eliminateColumn, pivotRow?, Option.bind_eq_bind, Option.bind_eq_some_iff,
    Option.some.injEq] at he
  obtain ⟨p, hp, rfl⟩ := he
  have hpm := List.mem_of_find?_eq_some hp
  have hpp := List.find?_some hp
  simp only [List.mem_range, Bool.and_eq_true, decide_eq_true_eq, bne_iff_ne, ne_eq,
    h.length] at hpm hpp
  obtain ⟨hshape, hswap⟩ := h.swap hcol hpm
  have hpivot : ∀ c, entry (normalizeRow (rowAt (swapRows a col p) col) col) c =
      cell a p c / cell a p col := by
    intro c
    rw [normalizeRow, entry_scaleVec, hswap col hcol, Equiv.swap_apply_left, cell, cell,
      one_div, div_eq_inv_mul]
  obtain ⟨hshape', hcell⟩ := hshape.clear
    (show (normalizeRow (rowAt (swapRows a col p) col) col).length = width by
      simp [normalizeRow, scaleVec, hshape.row col hcol]) col
  refine ⟨hshape', p, hcol, hpm, hpp.1, hpp.2, fun r hr c => ?_⟩
  rw [hcell r hr, hpivot]
  simp only [cell, hswap r hr]

theorem eliminateColumn_eq_none (h : HasShape n width a) {col : ℕ}
    (he : eliminateColumn a col = none) : ∀ r < n, col ≤ r → cell a r col = 0 := by
  intro r hr hcr
  simp only [eliminateColumn, pivotRow?, Option.bind_eq_bind, Option.bind_eq_none_iff] at he
  by_contra hne
  have hnone : ((List.range a.length).find? fun r =>
      decide (col ≤ r) && entry (rowAt a r) col != 0) = none := by
    cases hf : (List.range a.length).find? fun r =>
        decide (col ≤ r) && entry (rowAt a r) col != 0 with
    | none => rfl
    | some p => exact absurd (he p hf) (by simp)
  have := List.find?_eq_none.mp hnone r (by simpa [h.length] using hr)
  simp only [Bool.and_eq_true, decide_eq_true_eq, bne_iff_ne, ne_eq, not_and, not_not] at this
  exact hne (this hcr)

end Step

/-! ## The invariant -/

/-- What elimination keeps of the matrix `m` it began with, before a column. -/
structure Eliminated (n : ℕ) (m : List Vec) (col : ℕ) (a : List Vec) : Prop where
  shape : HasShape n (n + n) a
  left : ∀ r < n, ∀ c < n, cell a r c = ∑ k ∈ range n, cell a r (n + k) * cell m k c
  ker : ∀ x : ℕ → ℚ, (∀ r < n, ∑ c ∈ range n, cell a r c * x c = 0) →
    ∀ r < n, ∑ c ∈ range n, cell m r c * x c = 0
  unit : ∀ r < n, ∀ c < col, cell a r c = if r = c then 1 else 0

variable {n : ℕ} {m : List Vec}

theorem eliminated_augment (hm : HasShape n n m) : Eliminated n m 0 (augment m) := by
  have hrow : ∀ r < n, rowAt (augment m) r = rowAt m r ++ identityRow n r := by
    intro r hr
    rw [rowAt_eq_getElem (by simpa [augment, hm.length] using hr),
      rowAt_eq_getElem (by rwa [hm.length])]
    simp [augment, hm.length]
  have hleft : ∀ r < n, ∀ c < n, cell (augment m) r c = cell m r c := fun r hr c hc => by
    rw [cell, hrow r hr, entry_append_left (by rwa [hm.row r hr]), cell]
  have hright : ∀ r < n, ∀ k < n, cell (augment m) r (n + k) = if r = k then 1 else 0 := by
    intro r hr k hk
    have := entry_append_right (rowAt m r) (identityRow n r) k
    rw [hm.row r hr] at this
    rw [cell, hrow r hr, this, identityRow, entry_map_range _ hk]
  refine ⟨⟨by simp [augment, hm.length], fun r hr => ?_⟩, fun r hr c hc => ?_, fun x hx r hr => ?_,
    fun r _ c hc => absurd hc (Nat.not_lt_zero c)⟩
  · rw [hrow r hr, List.length_append, hm.row r hr]
    simp [identityRow]
  · rw [hleft r hr c hc, sum_eq_single_of_mem r (mem_range.mpr hr), hright r hr r hr, if_pos rfl,
      one_mul]
    intro k hk hkr
    rw [hright r hr k (mem_range.mp hk), if_neg hkr.symm, zero_mul]
  · rw [← hx r hr]
    exact sum_congr rfl fun c hc => by rw [hleft r hr c (mem_range.mp hc)]

section Cleared

variable {col p : ℕ} {a a' : List Vec} (hclear : IsCleared n col p a a')

include hclear

theorem IsCleared.swap_lt {r : ℕ} (hr : r < n) : Equiv.swap col p r < n := by
  rcases eq_or_ne r col with rfl | hrc
  · simpa using hclear.pivot_lt
  · rcases eq_or_ne r p with rfl | hrp
    · simpa using hclear.col_lt
    · rwa [Equiv.swap_apply_of_ne_of_ne hrc hrp]

theorem IsCleared.ker {x : ℕ → ℚ} (hx : ∀ r < n, ∑ c ∈ range n, cell a' r c * x c = 0) :
    ∀ r < n, ∑ c ∈ range n, cell a r c * x c = 0 := by
  have hpivot : ∑ c ∈ range n, cell a p c * x c = 0 := by
    have hrow := hx col hclear.col_lt
    simp only [hclear.cell_eq col hclear.col_lt, if_pos] at hrow
    have hscale : ∑ c ∈ range n, cell a p c * x c =
        cell a p col * ∑ c ∈ range n, cell a p c / cell a p col * x c := by
      have hne := hclear.pivot_ne_zero
      rw [mul_sum]
      exact sum_congr rfl fun c _ => by field_simp
    rw [hscale, hrow, mul_zero]
  have hback : ∀ r < n, r ≠ col → ∑ c ∈ range n, cell a (Equiv.swap col p r) c * x c = 0 := by
    intro r hr hrc
    have hrow := hx r hr
    simp only [hclear.cell_eq r hr, if_neg hrc, sub_mul, sum_sub_distrib] at hrow
    rw [sub_eq_zero] at hrow
    rw [hrow, ← mul_zero (cell a (Equiv.swap col p r) col / cell a p col), ← hpivot, mul_sum]
    exact sum_congr rfl fun c _ => by ring
  intro r hr
  rcases eq_or_ne r p with rfl | hrp
  · exact hpivot
  · rcases eq_or_ne r col with rfl | hrc
    · have hrow := hback p hclear.pivot_lt (Ne.symm hrp)
      rwa [Equiv.swap_apply_right] at hrow
    · have hrow := hback r hr hrc
      rwa [Equiv.swap_apply_of_ne_of_ne hrc hrp] at hrow

/-- The column becomes a unit column, and the unit columns before it stay. -/
theorem IsCleared.unit (h : ∀ r < n, ∀ c < col, cell a r c = if r = c then 1 else 0) :
    ∀ r < n, ∀ c < col + 1, cell a' r c = if r = c then 1 else 0 := by
  intro r hr c hc
  have hcp := hclear.col_le
  rw [hclear.cell_eq r hr]
  rcases Nat.lt_succ_iff_lt_or_eq.mp hc with hlt | rfl
  · have hpc : cell a p c = 0 := by
      rw [h p hclear.pivot_lt c hlt, if_neg (by omega)]
    rw [hpc, zero_div, mul_zero, sub_zero]
    split
    case isTrue hrc => rw [if_neg (by omega)]
    case isFalse hrc =>
      rw [h _ (hclear.swap_lt hr) c hlt]
      rcases eq_or_ne r p with rfl | hrp
      · rw [Equiv.swap_apply_right, if_neg (by omega), if_neg (by omega)]
      · rw [Equiv.swap_apply_of_ne_of_ne hrc hrp]
  · split
    · exact div_self hclear.pivot_ne_zero
    · rw [div_self hclear.pivot_ne_zero, mul_one, sub_self]

end Cleared

theorem Eliminated.step {col : ℕ} {a a' : List Vec} (h : Eliminated n m col a) (hcol : col < n)
    (he : eliminateColumn a col = some a') : Eliminated n m (col + 1) a' := by
  obtain ⟨hshape, p, hclear⟩ := eliminateColumn_eq_some h.shape hcol he
  refine ⟨hshape, fun r hr c hc => ?left, fun x hx => h.ker x (hclear.ker hx), hclear.unit h.unit⟩
  case left =>
    simp only [hclear.cell_eq r hr]
    split
    · rw [h.left p hclear.pivot_lt c hc, sum_div]
      exact sum_congr rfl fun k _ => by ring
    · rw [h.left _ (hclear.swap_lt hr) c hc, h.left p hclear.pivot_lt c hc, sum_div, mul_sum,
        ← sum_sub_distrib]
      exact sum_congr rfl fun k _ => by ring

theorem Eliminated.foldlM (hm : HasShape n n m) {k : ℕ} (hk : k ≤ n) {a : List Vec}
    (h : (List.range k).foldlM eliminateColumn (augment m) = some a) : Eliminated n m k a := by
  induction k generalizing a with
  | zero =>
    obtain rfl : augment m = a := by simpa using h
    exact eliminated_augment hm
  | succ k ih =>
    rw [List.range_succ, List.foldlM_append] at h
    simp only [List.foldlM_cons, List.foldlM_nil, Option.bind_eq_bind, Option.bind_eq_some_iff]
      at h
    obtain ⟨b, hb, c, hc, h⟩ := h
    obtain rfl : c = a := by simpa using h
    exact (ih (by omega) hb).step (by omega) hc

/-! ## The inverse -/

theorem invert_eq_some (hm : HasShape n n m) {inv : List Vec} (h : invert m = some inv) :
    HasShape n n inv ∧ ∀ r < n, ∀ c < n,
      ∑ k ∈ range n, cell inv r k * cell m k c = if r = c then 1 else 0 := by
  simp only [invert, hm.length, Option.bind_eq_bind, Option.bind_eq_some_iff,
    Option.some.injEq] at h
  obtain ⟨a, ha, rfl⟩ := h
  have hel := Eliminated.foldlM hm le_rfl ha
  have hrow : ∀ r < n, rowAt (a.map fun row => row.drop n) r = (rowAt a r).drop n := by
    intro r hr
    rw [rowAt_eq_getElem (by simpa [hel.shape.length] using hr),
      rowAt_eq_getElem (by rwa [hel.shape.length])]
    simp
  refine ⟨⟨by simp [hel.shape.length], fun r hr => ?_⟩, fun r hr c hc => ?_⟩
  · rw [hrow r hr, List.length_drop, hel.shape.row r hr]
    omega
  · rw [← hel.unit r hr c hc, hel.left r hr c hc]
    refine sum_congr rfl fun k _ => ?_
    simp only [cell, hrow r hr, entry_drop]

theorem exists_eliminateColumn_eq_none {a : List Vec} {n : ℕ}
    (h : (List.range n).foldlM eliminateColumn a = none) : ∃ k < n, ∃ b,
      (List.range k).foldlM eliminateColumn a = some b ∧ eliminateColumn b k = none := by
  induction n with
  | zero => simp at h
  | succ n ih =>
    rw [List.range_succ, List.foldlM_append] at h
    cases hf : (List.range n).foldlM eliminateColumn a with
    | none =>
      obtain ⟨k, hk, rest⟩ := ih hf
      exact ⟨k, by omega, rest⟩
    | some b =>
      refine ⟨n, by omega, b, hf, ?_⟩
      rw [hf] at h
      cases hc : eliminateColumn b n with
      | none => rfl
      | some b' => simp [hc] at h

/-- One at the free column, and what makes up for it at the unit columns before. -/
def freeVector (a : List Vec) (k c : ℕ) : ℚ := if c = k then 1 else if c < k then -cell a c k else 0

theorem Eliminated.sum_mul_freeVector {a : List Vec} {k : ℕ} (h : Eliminated n m k a) (hk : k < n)
    (hfree : ∀ r < n, k ≤ r → cell a r k = 0) {r : ℕ} (hr : r < n) :
    ∑ c ∈ range n, cell a r c * freeVector a k c = 0 := by
  have hterm : ∀ c ∈ range n, cell a r c * freeVector a k c =
      (if c = k then cell a r k else 0) +
        if c = r then (if r < k then -cell a r k else 0) else 0 := by
    intro c _
    rw [freeVector]
    by_cases hck : c = k
    · subst hck
      by_cases hcr : c = r
      · subst hcr; simp
      · simp [hcr]
    · by_cases hlt : c < k
      · rw [if_neg hck, if_pos hlt, h.unit r hr c hlt]
        by_cases hcr : c = r
        · subst hcr; simp [hck, hlt]
        · simp [hck, hcr, Ne.symm hcr]
      · by_cases hcr : c = r
        · subst hcr; simp [hck, hlt]
        · simp [hck, hlt, hcr]
  rw [sum_congr rfl hterm, sum_add_distrib, sum_ite_eq', sum_ite_eq', if_pos (mem_range.mpr hk),
    if_pos (mem_range.mpr hr)]
  split
  · simp
  case isFalse hrk => rw [hfree r hr (not_lt.mp hrk), add_zero]

/-- A matrix without inverse sends a vector other than zero to zero. -/
theorem invert_eq_none (hm : HasShape n n m) (h : invert m = none) :
    ∃ x : ℕ → ℚ, (∃ c < n, x c ≠ 0) ∧ ∀ r < n, ∑ c ∈ range n, cell m r c * x c = 0 := by
  simp only [invert, hm.length, Option.bind_eq_bind, Option.bind_eq_none_iff] at h
  have hfold : (List.range n).foldlM eliminateColumn (augment m) = none := by
    cases hf : (List.range n).foldlM eliminateColumn (augment m) with
    | none => rfl
    | some a => exact absurd (h a hf) (by simp)
  obtain ⟨k, hk, a, ha, hnone⟩ := exists_eliminateColumn_eq_none hfold
  have hel := Eliminated.foldlM hm hk.le ha
  have hfree := eliminateColumn_eq_none hel.shape hnone
  exact ⟨freeVector a k, ⟨k, hk, by simp [freeVector]⟩,
    hel.ker _ fun r hr => hel.sum_mul_freeVector hk hfree hr⟩

end Orthant
