import Mathlib
import Orthant.Linear.Elimination
import Orthant.Proofs.Linear.Vector

/-! # Correctness of the kernel

The vectors that all rows send to zero form a space. Clearing the first column turns it into a space
of shorter vectors, so its dimension is the number of vectors of the computed kernel.
-/

namespace Orthant

def nullSpace (width : ℕ) (rows : List Vec) : Submodule ℚ (Fin width → ℚ) where
  carrier := { x | ∀ row ∈ rows, ∑ i : Fin width, entry row i * x i = 0 }
  zero_mem' := fun _ _ => by simp
  add_mem' := fun hx hy row h => by
    simp only [Pi.add_apply, mul_add, Finset.sum_add_distrib, hx row h, hy row h, add_zero]
  smul_mem' := fun s x hx row h => by
    simp only [Pi.smul_apply, smul_eq_mul, mul_left_comm _ s, ← Finset.mul_sum, hx row h, mul_zero]

theorem mem_nullSpace {width : ℕ} {rows : List Vec} {x : Fin width → ℚ} :
    x ∈ nullSpace width rows ↔ ∀ row ∈ rows, ∑ i : Fin width, entry row i * x i = 0 := Iff.rfl

/-- All rows have a given width. -/
def HasWidth (width : ℕ) (rows : List Vec) : Prop := ∀ row ∈ rows, row.length = width

/-! ## Clearing the first column -/

section Step

variable {width : ℕ} {rows rest : List Vec} {p : Vec}

theorem sum_entry_succ (row : Vec) (x : Fin (width + 1) → ℚ) :
    ∑ i : Fin (width + 1), entry row i * x i =
      headEntry row * x 0 + ∑ i : Fin width, entry row.tail i * Fin.tail x i := by
  rw [Fin.sum_univ_succ]
  cases row <;> simp [entry, headEntry, Fin.tail]

theorem splitPivot_eq_none : splitPivot rows = none ↔ ∀ row ∈ rows, headEntry row = 0 := by
  induction rows with
  | nil => simp [splitPivot]
  | cons r rows ih =>
    rw [splitPivot]
    split
    case isTrue h => simp [h, ih]
    case isFalse h => simp [h]

theorem splitPivot_eq_some (h : splitPivot rows = some (p, rest)) :
    headEntry p ≠ 0 ∧ rows.Perm (p :: rest) := by
  induction rows generalizing p rest with
  | nil => simp [splitPivot] at h
  | cons r rows ih =>
    rw [splitPivot] at h
    split at h
    · obtain ⟨⟨q, l⟩, hq, he⟩ := Option.map_eq_some_iff.mp h
      obtain ⟨rfl, rfl⟩ := Prod.mk.inj he
      obtain ⟨hne, hperm⟩ := ih hq
      exact ⟨hne, (hperm.cons r).trans (List.Perm.swap q r l)⟩
    case isFalse hr =>
      obtain ⟨rfl, rfl⟩ := Prod.mk.inj (Option.some.inj h)
      exact ⟨hr, List.Perm.refl _⟩

theorem length_clearHead {row : Vec} (hp : p.length = width + 1) (hr : row.length = width + 1) :
    (clearHead p row).length = width := by
  rw [clearHead]
  split
  · simp [hr]
  · simp [length_subScaled, hp, hr]

theorem entry_clearHead {row : Vec} (hp : p.length = width + 1) (hr : row.length = width + 1)
    (i : ℕ) : entry (clearHead p row) i =
      entry row.tail i - headEntry row / headEntry p * entry p.tail i := by
  rw [clearHead]
  split
  case isTrue h => rw [h, zero_div, zero_mul, sub_zero]
  case isFalse h => rw [entry_subScaled (by simp [hp, hr])]

theorem sum_clearHead {row : Vec} (hp : p.length = width + 1) (hr : row.length = width + 1)
    (y : Fin width → ℚ) : ∑ i : Fin width, entry (clearHead p row) i * y i =
      ∑ i : Fin width, entry row.tail i * y i -
        headEntry row / headEntry p * ∑ i : Fin width, entry p.tail i * y i := by
  simp only [entry_clearHead hp hr, sub_mul, Finset.sum_sub_distrib, Finset.mul_sum, mul_assoc]

theorem HasWidth.tail (h : HasWidth (width + 1) rows) : HasWidth width (rows.map List.tail) := by
  intro row hrow
  obtain ⟨r, hr, rfl⟩ := List.mem_map.mp hrow
  simp [h r hr]

theorem HasWidth.clear (h : HasWidth (width + 1) rows) (hs : splitPivot rows = some (p, rest)) :
    p.length = width + 1 ∧ HasWidth (width + 1) rest ∧
      HasWidth width (rest.map (clearHead p)) := by
  obtain ⟨-, hperm⟩ := splitPivot_eq_some hs
  have hp : p.length = width + 1 := h p (hperm.mem_iff.mpr List.mem_cons_self)
  have hrest : HasWidth (width + 1) rest := fun r hr =>
    h r (hperm.mem_iff.mpr (List.mem_cons_of_mem p hr))
  refine ⟨hp, hrest, fun row hrow => ?_⟩
  obtain ⟨r, hr, rfl⟩ := List.mem_map.mp hrow
  exact length_clearHead hp (hrest r hr)

theorem mem_nullSpace_of_none (h : splitPivot rows = none) (x : Fin (width + 1) → ℚ) :
    x ∈ nullSpace (width + 1) rows ↔ Fin.tail x ∈ nullSpace width (rows.map List.tail) := by
  simp only [mem_nullSpace, List.forall_mem_map]
  refine forall₂_congr fun row hrow => ?_
  rw [sum_entry_succ, splitPivot_eq_none.mp h row hrow, zero_mul, zero_add]

/-- The pivot row determines the first entry, and the cleared rows decide about the others. -/
theorem mem_nullSpace_of_some (hw : HasWidth (width + 1) rows)
    (h : splitPivot rows = some (p, rest)) (x : Fin (width + 1) → ℚ) :
    x ∈ nullSpace (width + 1) rows ↔
      x 0 = -(∑ i : Fin width, entry p.tail i * Fin.tail x i) / headEntry p ∧
        Fin.tail x ∈ nullSpace width (rest.map (clearHead p)) := by
  obtain ⟨hne, hperm⟩ := splitPivot_eq_some h
  obtain ⟨hp, hrest, -⟩ := hw.clear h
  have hpivot : headEntry p * x 0 + ∑ i : Fin width, entry p.tail i * Fin.tail x i = 0 ↔
      x 0 = -(∑ i : Fin width, entry p.tail i * Fin.tail x i) / headEntry p := by
    rw [eq_div_iff hne, mul_comm (x 0), eq_neg_iff_add_eq_zero]
  simp only [mem_nullSpace, hperm.mem_iff, List.forall_mem_cons, List.forall_mem_map,
    sum_entry_succ, hpivot]
  refine and_congr_right fun hx => forall₂_congr fun row hrow => ?_
  rw [sum_clearHead hp (hrest row hrow), hx]
  refine Eq.congr ?_ rfl
  ring

end Step

/-! ## The kernel -/

def nullSpaceEquivProd {width : ℕ} {rows : List Vec} (h : splitPivot rows = none) :
    nullSpace (width + 1) rows ≃ₗ[ℚ] ℚ × nullSpace width (rows.map List.tail) where
  toFun x := (x.1 0, ⟨Fin.tail x.1, (mem_nullSpace_of_none h _).mp x.2⟩)
  map_add' _ _ := rfl
  map_smul' _ _ := rfl
  invFun y := ⟨Fin.cons y.1 y.2.1, (mem_nullSpace_of_none h _).mpr (by simp)⟩
  left_inv x := Subtype.ext (Fin.cons_self_tail x.1)
  right_inv y := by simp

def nullSpaceEquiv {width : ℕ} {rows rest : List Vec} {p : Vec} (hw : HasWidth (width + 1) rows)
    (h : splitPivot rows = some (p, rest)) :
    nullSpace (width + 1) rows ≃ₗ[ℚ] nullSpace width (rest.map (clearHead p)) where
  toFun x := ⟨Fin.tail x.1, ((mem_nullSpace_of_some hw h _).mp x.2).2⟩
  map_add' _ _ := rfl
  map_smul' _ _ := rfl
  invFun y := ⟨Fin.cons (-(∑ i : Fin width, entry p.tail i * y.1 i) / headEntry p) y.1,
    (mem_nullSpace_of_some hw h _).mpr (by simp)⟩
  left_inv x := Subtype.ext <| by
    obtain ⟨hx, -⟩ := (mem_nullSpace_of_some hw h _).mp x.2
    dsimp only
    rw [← hx]
    exact Fin.cons_self_tail x.1
  right_inv y := by simp

theorem rank_add_length_kernel (width : ℕ) (rows : List Vec) :
    rank width rows + (kernel width rows).length = width := by
  induction width generalizing rows with
  | zero => simp [rank, kernel]
  | succ width ih =>
    rw [rank, kernel]
    split
    · rw [List.length_cons, List.length_map, ← add_assoc, ih]
    · rw [List.length_map, add_right_comm, ih]

/-- The computed kernel has as many vectors as the space has dimensions. -/
theorem finrank_nullSpace {width : ℕ} {rows : List Vec} (hw : HasWidth width rows) :
    Module.finrank ℚ (nullSpace width rows) = (kernel width rows).length := by
  induction width generalizing rows with
  | zero => rw [kernel, List.length_nil, Module.finrank_zero_of_subsingleton]
  | succ width ih =>
    rw [kernel]
    split
    case h_1 h =>
      rw [(nullSpaceEquivProd h).finrank_eq, Module.finrank_prod, ih hw.tail, Module.finrank_self,
        List.length_cons, List.length_map, add_comm]
    case h_2 p rest h =>
      rw [(nullSpaceEquiv hw h).finrank_eq, ih (hw.clear h).2.2, List.length_map]

/-- The vectors of the computed kernel are sent to zero and are not zero. -/
theorem mem_kernel {width : ℕ} {rows : List Vec} (hw : HasWidth width rows) {v : Vec}
    (hv : v ∈ kernel width rows) : v.length = width ∧ (∃ i < width, entry v i ≠ 0) ∧
      (fun i : Fin width => entry v i) ∈ nullSpace width rows := by
  induction width generalizing rows v with
  | zero => simp [kernel] at hv
  | succ width ih =>
    rw [kernel] at hv
    split at hv
    case h_1 h =>
      rcases List.mem_cons.mp hv with rfl | hv
      · refine ⟨by simp, ⟨0, by simp, by simp [entry]⟩, (mem_nullSpace_of_none h _).mpr ?_⟩
        intro row _
        refine Finset.sum_eq_zero fun i _ => ?_
        simp [Fin.tail, entry]
      · obtain ⟨u, hu, rfl⟩ := List.mem_map.mp hv
        obtain ⟨hl, ⟨i, hi, hne⟩, hnull⟩ := ih hw.tail hu
        refine ⟨by simp [hl], ⟨i + 1, by omega, by simpa [entry] using hne⟩,
          (mem_nullSpace_of_none h _).mpr ?_⟩
        exact hnull
    case h_2 p rest h =>
      obtain ⟨u, hu, rfl⟩ := List.mem_map.mp hv
      obtain ⟨hp, -, hclear⟩ := hw.clear h
      obtain ⟨hl, ⟨i, hi, hne⟩, hnull⟩ := ih hclear hu
      refine ⟨by simp [hl], ⟨i + 1, by omega, by simpa [entry] using hne⟩,
        (mem_nullSpace_of_some hw h _).mpr ⟨?_, hnull⟩⟩
      rw [dot_eq_sum_of_le (n := width) (by simp [hp]), Finset.sum_range]
      simp [Fin.tail, entry]

theorem exists_last_of_mem_kernel {width : ℕ} {rows : List Vec} {v : Vec}
    (hv : v ∈ kernel width rows) : ∃ k, entry v k = 1 ∧ ∀ j, k < j → entry v j = 0 := by
  induction width generalizing rows v with
  | zero => simp [kernel] at hv
  | succ width ih =>
    have hcons : ∀ (q : ℚ) (u : Vec), (∃ k, entry u k = 1 ∧ ∀ j, k < j → entry u j = 0) →
        ∃ k, entry (q :: u) k = 1 ∧ ∀ j, k < j → entry (q :: u) j = 0 := by
      rintro q u ⟨k, hk, hlast⟩
      refine ⟨k + 1, by simpa [entry] using hk, fun j hj => ?_⟩
      obtain ⟨i, rfl⟩ := Nat.exists_eq_add_of_lt (Nat.zero_lt_of_lt hj)
      simpa [entry] using hlast (0 + i) (by omega)
    rw [kernel] at hv
    split at hv
    case h_1 =>
      rcases List.mem_cons.mp hv with rfl | hv
      · refine ⟨0, by simp [entry], fun j hj => ?_⟩
        obtain ⟨i, rfl⟩ := Nat.exists_eq_add_of_lt hj
        by_cases hi : i < width <;> simp [entry, hi]
      · obtain ⟨u, hu, rfl⟩ := List.mem_map.mp hv
        exact hcons 0 u (ih hu)
    case h_2 =>
      obtain ⟨u, hu, rfl⟩ := List.mem_map.mp hv
      exact hcons _ u (ih hu)

theorem rank_eq_iff {width : ℕ} {rows : List Vec} (hw : HasWidth width rows) :
    rank width rows = width ↔ nullSpace width rows = ⊥ := by
  rw [← Submodule.finrank_eq_zero, finrank_nullSpace hw]
  have := rank_add_length_kernel width rows
  omega

end Orthant
