import Mathlib
import Orthant.Linear.Spectrum
import Orthant.Proofs.Linear.Kernel
import Orthant.Proofs.Linear.Matrix

/-! # Singular values

Elimination of a symmetric matrix has positive pivots exactly if the matrix is positive definite. So
the numeric rank of a square matrix is full if the matrix shortens no vector too much, compared with
its largest stretch. In particular it is full if the determinant is large enough.
-/

namespace Orthant

open Matrix

variable {n : ℕ}

/-! ## Positive pivots -/

section Complement

variable {K : Type*} [Field K] [LinearOrder K] [IsStrictOrderedRing K]

def IsPositive (M : Matrix (Fin n) (Fin n) K) : Prop := ∀ x ≠ 0, 0 < x ⬝ᵥ M *ᵥ x

omit [LinearOrder K] [IsStrictOrderedRing K] in
/-- What elimination of the first column leaves. -/
def complement (M : Matrix (Fin (n + 1)) (Fin (n + 1)) K) : Matrix (Fin n) (Fin n) K :=
  .of fun i j => M i.succ j.succ - vecHead (M i.succ) / vecHead (vecHead M) * vecHead M j.succ

variable {M : Matrix (Fin (n + 1)) (Fin (n + 1)) K} (hM : M.IsSymm)

include hM

theorem isSymm_complement : (complement M).IsSymm := by
  ext i j
  simp only [transpose_apply, complement, of_apply, vecHead, hM.apply]
  ring

theorem dotProduct_mulVec_cons (h0 : M 0 0 ≠ 0) (a : K) (x : Fin n → K) :
    vecCons a x ⬝ᵥ M *ᵥ vecCons a x =
      M 0 0 * (a + (∑ j, M 0 j.succ * x j) / M 0 0) ^ 2 + x ⬝ᵥ complement M *ᵥ x := by
  have hrow : ∑ i, x i * M i.succ 0 = ∑ j, M 0 j.succ * x j :=
    Finset.sum_congr rfl fun i _ => by rw [hM.apply, mul_comm]
  have hproduct : (∑ i, x i * M i.succ 0) / M 0 0 * ∑ j, M 0 j.succ * x j =
      ∑ i, ∑ j, x i * (M i.succ 0 / M 0 0 * M 0 j.succ * x j) := by
    rw [Finset.sum_div, Finset.sum_mul_sum]
    refine Finset.sum_congr rfl fun i _ => Finset.sum_congr rfl fun j _ => ?_
    ring
  have hrest : x ⬝ᵥ complement M *ᵥ x = ∑ i, x i * ∑ j, M i.succ j.succ * x j -
      (∑ i, x i * M i.succ 0) / M 0 0 * ∑ j, M 0 j.succ * x j := by
    rw [hproduct]
    simp only [dotProduct, mulVec, complement, of_apply, vecHead, sub_mul, Finset.sum_sub_distrib, mul_sub,
      Finset.mul_sum]
  have hcolumn : ∑ i, x i * (M i.succ 0 * a) = a * ∑ i, x i * M i.succ 0 := by
    rw [Finset.mul_sum]
    exact Finset.sum_congr rfl fun i _ => by ring
  have hfirst : vecCons a x ⬝ᵥ M *ᵥ vecCons a x = a * (M 0 0 * a + ∑ j, M 0 j.succ * x j) +
      (a * ∑ i, x i * M i.succ 0 + ∑ i, x i * ∑ j, M i.succ j.succ * x j) := by
    simp only [dotProduct, mulVec, Fin.sum_univ_succ, cons_val_zero, cons_val_succ, mul_add,
      Finset.sum_add_distrib, hcolumn]
    ring
  rw [hrest, hfirst, hrow]
  field_simp
  ring

theorem isPositive_iff_complement : IsPositive M ↔ 0 < M 0 0 ∧ IsPositive (complement M) := by
  constructor
  · intro h
    have h0 : 0 < M 0 0 := by
      have := h (Pi.single 0 1) (by simp)
      simpa using this
    refine ⟨h0, fun x hx => ?_⟩
    -- The first variable is chosen such that the square vanishes.
    set a := -((∑ j, M 0 j.succ * x j) / M 0 0) with ha
    have hne : vecCons a x ≠ 0 := fun hzero => hx (funext fun i => congrFun hzero i.succ)
    have hpos := h _ hne
    rwa [dotProduct_mulVec_cons hM h0.ne', ha, neg_add_cancel, zero_pow two_ne_zero, mul_zero,
      zero_add] at hpos
  · rintro ⟨h0, h⟩ x hx
    obtain ⟨a, y, rfl⟩ : ∃ a y, x = vecCons a y := ⟨vecHead x, vecTail x, (cons_head_tail x).symm⟩
    rw [dotProduct_mulVec_cons hM h0.ne']
    rcases eq_or_ne y 0 with rfl | hy
    · have ha : a ≠ 0 := fun ha => hx (by simp [ha])
      have : 0 < M 0 0 * a ^ 2 := mul_pos h0 (by positivity)
      simpa using this
    · have := h y hy
      have := mul_nonneg h0.le (sq_nonneg (a + (∑ j, M 0 j.succ * y j) / M 0 0))
      linarith

end Complement

def realMatrix (n : ℕ) (m : List Vec) : Matrix (Fin n) (Fin n) ℝ := .of fun i j => (cell m i j : ℝ)

@[simp] theorem realMatrix_apply (m : List Vec) (i j : Fin n) :
    realMatrix n m i j = (cell m i j : ℝ) := rfl

theorem HasShape.of_cons {width : ℕ} {row : Vec} {rows : List Vec}
    (h : HasShape (n + 1) width (row :: rows)) : row.length = width ∧ HasShape n width rows :=
  ⟨h.row 0 n.succ_pos, Nat.succ.inj h.length, fun r hr => h.row (r + 1) (Nat.succ_lt_succ hr)⟩

theorem entry_tail (v : Vec) (i : ℕ) : entry v.tail i = entry v (i + 1) := by
  cases v <;> simp [entry]

theorem headEntry_eq_entry (v : Vec) : headEntry v = entry v 0 := by cases v <;> rfl

theorem positivePivots_iff {m : List Vec} (hm : HasShape n n m)
    (hsymm : (realMatrix n m).IsSymm) : positivePivots n m = true ↔ IsPositive (realMatrix n m) := by
  induction n generalizing m with
  | zero =>
    rw [positivePivots]
    · exact iff_of_true rfl fun x hx => (hx (Subsingleton.elim x 0)).elim
    · simp
  | succ n ih =>
    obtain ⟨row, rows, rfl⟩ := List.exists_cons_of_length_eq_add_one hm.length
    obtain ⟨hrow, hrows⟩ := hm.of_cons
    have hclear : ∀ i < n, rowAt (rows.map (clearHead row)) i = clearHead row (rowAt rows i) :=
      fun i hi => by
        have hi : i < rows.length := hrows.length.symm ▸ hi
        rw [rowAt_eq_getElem (by simpa using hi), List.getElem_map, rowAt_eq_getElem hi]
    have hrest : HasShape n n (rows.map (clearHead row)) := by
      refine ⟨by simp [hrows.length], fun i hi => ?_⟩
      rw [hclear i hi, length_clearHead hrow (hrows.row i hi)]
    have hcomplement : realMatrix n (rows.map (clearHead row)) =
        complement (realMatrix (n + 1) (row :: rows)) := by
      ext i j
      rw [realMatrix_apply, cell, hclear i i.isLt, entry_clearHead hrow (hrows.row i i.isLt),
        entry_tail, entry_tail, headEntry_eq_entry, headEntry_eq_entry]
      push_cast
      rfl
    rw [positivePivots, Bool.and_eq_true, decide_eq_true_iff,
      ih hrest (hcomplement ▸ isSymm_complement hsymm), hcomplement,
      isPositive_iff_complement hsymm, headEntry_eq_entry]
    refine and_congr_left fun _ => ?_
    exact Rat.cast_pos.symm

/-! ## Products of columns -/

section Products

variable {rows : List Vec}

theorem hasShape_gram : HasShape n n (gram (columns rows n)) := by
  have hlen : (gram (columns rows n)).length = n := by simp [gram, columns]
  refine ⟨hlen, fun i hi => ?_⟩
  rw [rowAt_eq_getElem (hlen.symm ▸ hi)]
  simp [gram, applyRows, columns]

theorem realMatrix_gram (hrows : HasShape n n rows) :
    realMatrix n (gram (columns rows n)) = (realMatrix n rows)ᵀ * realMatrix n rows := by
  have hentry : ∀ i k, k < n → entry (rows.map fun r => entry r i) k = cell rows k i := by
    intro i k hk
    have hk : k < rows.length := hrows.length.symm ▸ hk
    rw [entry_eq_getElem (by simpa using hk), List.getElem_map, cell, rowAt_eq_getElem hk]
  ext i j
  have hcell : cell (gram (columns rows n)) i j =
      dot (rows.map fun r => entry r j) (rows.map fun r => entry r i) := by
    have hi : (i : ℕ) < (columns rows n).length := by simp [columns]
    have hj : (j : ℕ) < (columns rows n).length := by simp [columns]
    rw [cell, rowAt_eq_getElem (by simpa [gram] using hi)]
    simp only [gram, List.getElem_map, applyRows]
    rw [entry_eq_getElem (by simpa using hj)]
    simp [columns]
  rw [realMatrix_apply, hcell, dot_eq_sum_of_le (n := n) (by simp [hrows.length]), mul_apply,
    Finset.sum_range]
  push_cast
  refine Finset.sum_congr rfl fun k _ => ?_
  rw [hentry _ k k.isLt, hentry _ k k.isLt, transpose_apply, realMatrix_apply, realMatrix_apply,
    mul_comm]

theorem rowAt_pencil {m : List Vec} {i : ℕ} (hi : i < m.length) (s f : ℚ) :
    rowAt (pencil s f m) i = subScaled (scaleVec s (identityRow m.length i)) f (rowAt m i) := by
  rw [rowAt_eq_getElem (by simpa [pencil] using hi), rowAt_eq_getElem hi]
  simp [pencil]

theorem hasShape_pencil {m : List Vec} (hm : HasShape n n m) (s f : ℚ) :
    HasShape n n (pencil s f m) := by
  refine ⟨by simp [pencil, hm.length], fun i hi => ?_⟩
  rw [rowAt_pencil (hm.length.symm ▸ hi), length_subScaled, hm.row i hi]
  simp [scaleVec, identityRow, hm.length]

theorem realMatrix_pencil {m : List Vec} (hm : HasShape n n m) (s f : ℚ) :
    realMatrix n (pencil s f m) = (s : ℝ) • 1 - (f : ℝ) • realMatrix n m := by
  ext i j
  rw [realMatrix_apply, cell, rowAt_pencil (hm.length.symm ▸ i.isLt),
    entry_subScaled (by simp [scaleVec, identityRow, hm.length, hm.row i i.isLt]), entry_scaleVec,
    identityRow, hm.length, entry_map_range _ j.isLt]
  rcases eq_or_ne i j with rfl | hij
  · simp [cell]
  · simp [cell, hij, Fin.val_ne_of_ne hij]

/-- How much a matrix stretches a vector, squared. -/
def stretch (A : Matrix (Fin n) (Fin n) ℝ) (x : Fin n → ℝ) : ℝ := A *ᵥ x ⬝ᵥ A *ᵥ x

theorem stretch_nonneg (A : Matrix (Fin n) (Fin n) ℝ) (x : Fin n → ℝ) : 0 ≤ stretch A x := by
  rw [stretch, dotProduct]
  exact Finset.sum_nonneg fun _ _ => mul_self_nonneg _

theorem stretch_eq (A : Matrix (Fin n) (Fin n) ℝ) (x : Fin n → ℝ) :
    stretch A x = x ⬝ᵥ (Aᵀ * A) *ᵥ x := by
  rw [stretch, ← mulVec_mulVec, mulVec_transpose, dotProduct_comm x, dotProduct_mulVec]

theorem positivePivots_pencil_iff (hrows : HasShape n n rows) (s f : ℚ) :
    positivePivots n (pencil s f (gram (columns rows n))) = true ↔
      ∀ x ≠ 0, f * stretch (realMatrix n rows) x < s * (x ⬝ᵥ x) := by
  have hsymm : (realMatrix n (pencil s f (gram (columns rows n)))).IsSymm := by
    rw [realMatrix_pencil hasShape_gram, realMatrix_gram hrows, IsSymm, transpose_sub,
      transpose_smul, transpose_smul, transpose_one, transpose_mul, transpose_transpose]
  rw [positivePivots_iff (hasShape_pencil hasShape_gram s f) hsymm, IsPositive]
  refine forall₂_congr fun x _ => ?_
  rw [realMatrix_pencil hasShape_gram, realMatrix_gram hrows, sub_mulVec, smul_mulVec, smul_mulVec,
    one_mulVec, dotProduct_sub, dotProduct_smul, dotProduct_smul, ← stretch_eq, sub_pos]
  rfl

end Products

/-! ## Singular values -/

section Singular

variable {A : Matrix (Fin n) (Fin n) ℝ} {rows : List Vec}

theorem stretch_le (A : Matrix (Fin n) (Fin n) ℝ) (x : Fin n → ℝ) :
    stretch A x ≤ (Aᵀ * A).trace * (x ⬝ᵥ x) := by
  have htrace : (Aᵀ * A).trace = ∑ i, ∑ j, A i j ^ 2 := by
    rw [Finset.sum_comm]
    simp only [trace, diag_apply, mul_apply, transpose_apply, sq]
  rw [htrace, Finset.sum_mul, stretch, dotProduct]
  refine Finset.sum_le_sum fun i _ => ?_
  have := Finset.sum_mul_sq_le_sq_mul_sq Finset.univ (A i) x
  simpa only [mulVec, dotProduct, ← sq] using this

theorem dotProduct_self_pos {x : Fin n → ℝ} (hx : x ≠ 0) : 0 < x ⬝ᵥ x := by
  simpa using dotProduct_self_star_pos_iff.mpr hx

theorem diagonalSum_eq {m : List Vec} (hm : HasShape n n m) :
    (diagonalSum m : ℝ) = (realMatrix n m).trace := by
  have hmap : m.zipIdx.map (fun r => entry r.1 r.2) = List.ofFn fun i : Fin n => cell m i i := by
    refine List.ext_getElem (by simp [hm.length]) fun i hi _ => ?_
    have hi : i < m.length := by simpa using hi
    simp [cell, rowAt_eq_getElem hi]
  have hsum : diagonalSum m = (m.zipIdx.map fun r => entry r.1 r.2).sum := List.foldr_map.symm
  rw [hsum, hmap, List.sum_ofFn]
  push_cast
  rfl

theorem rankTolerance_eq (rows width : ℕ) :
    rankTolerance rows width = (max rows width : ℕ) / 2 ^ 52 := by
  have h : rankTolerance rows width = mkRat (max rows width : ℕ) (2 ^ 52) := rfl
  rw [h, Rat.mkRat_eq_div]
  norm_num

theorem boundSpectrum_spec (hrows : HasShape n n rows) {below above : ℚ} (steps : ℕ)
    (hle : below ≤ above)
    (habove : ∀ x, stretch (realMatrix n rows) x ≤ above * (x ⬝ᵥ x))
    (hbelow : ∀ b : ℝ, (∀ x, stretch (realMatrix n rows) x ≤ b * (x ⬝ᵥ x)) → below ≤ b) :
    ∃ L, boundSpectrum (gram (columns rows n)) steps below above = L ∧ L ≤ above ∧
      (∀ x, stretch (realMatrix n rows) x ≤ L * (x ⬝ᵥ x)) ∧
      ∀ b : ℝ, (∀ x, stretch (realMatrix n rows) x ≤ b * (x ⬝ᵥ x)) →
        L ≤ b + (above - below) / 2 ^ steps := by
  induction steps generalizing below above with
  | zero => exact ⟨above, rfl, le_rfl, habove, fun b hb => by linarith [hbelow b hb]⟩
  | succ steps ih =>
    have hlow : below ≤ (below + above) / 2 := by linarith
    have hhigh : (below + above) / 2 ≤ above := by linarith
    rw [boundSpectrum, hasShape_gram.length]
    split
    case isTrue hpos =>
      rw [positivePivots_pencil_iff hrows] at hpos
      have hmiddle : ∀ x, stretch (realMatrix n rows) x ≤ ((below + above) / 2 : ℚ) * (x ⬝ᵥ x) := by
        intro x
        rcases eq_or_ne x 0 with rfl | hx
        · simp [stretch]
        · simpa using (hpos x hx).le
      obtain ⟨L, hL, hLle, hstretch, hnear⟩ := ih hlow hmiddle hbelow
      refine ⟨L, hL, hLle.trans hhigh, hstretch, fun b hb => (hnear b hb).trans_eq ?_⟩
      push_cast
      ring
    case isFalse hpos =>
      rw [positivePivots_pencil_iff hrows] at hpos
      push Not at hpos
      obtain ⟨x, hx, hfar⟩ := hpos
      have hmiddle : ∀ b : ℝ, (∀ x, stretch (realMatrix n rows) x ≤ b * (x ⬝ᵥ x)) →
          (((below + above) / 2 : ℚ) : ℝ) ≤ b := by
        intro b hb
        refine le_of_mul_le_mul_right (le_trans ?_ (hb x)) (dotProduct_self_pos hx)
        simpa using hfar
      obtain ⟨L, hL, hLle, hstretch, hnear⟩ := ih hhigh habove hmiddle
      refine ⟨L, hL, hLle, hstretch, fun b hb => (hnear b hb).trans_eq ?_⟩
      push_cast
      ring

/-- The numeric rank is full if and only if no vector is shortened too much in comparison with a close
bound for the largest stretch. -/
theorem exists_hasFullRank_iff {rows : List Vec} (hrows : HasShape (n + 1) (n + 1) rows) :
    ∃ L : ℚ, (∀ x, stretch (realMatrix (n + 1) rows) x ≤ L * (x ⬝ᵥ x)) ∧
      L ≤ ((realMatrix (n + 1) rows)ᵀ * realMatrix (n + 1) rows).trace ∧
      (∀ b : ℝ, (∀ x, stretch (realMatrix (n + 1) rows) x ≤ b * (x ⬝ᵥ x)) → L ≤ b +
        ((realMatrix (n + 1) rows)ᵀ * realMatrix (n + 1) rows).trace / 2 ^ 20) ∧
      (hasFullRank rows (n + 1) = true ↔ ∀ x ≠ 0,
        rankTolerance (n + 1) (n + 1) ^ 2 * L * (x ⬝ᵥ x) < stretch (realMatrix (n + 1) rows) x) := by
  have hsum : (diagonalSum (gram (columns rows (n + 1))) : ℝ) =
      ((realMatrix (n + 1) rows)ᵀ * realMatrix (n + 1) rows).trace := by
    rw [diagonalSum_eq hasShape_gram, realMatrix_gram hrows]
  have hnonneg : ∀ b : ℝ, (∀ x, stretch (realMatrix (n + 1) rows) x ≤ b * (x ⬝ᵥ x)) → 0 ≤ b := by
    intro b hb
    have hpos : 0 < (Pi.single 0 1 : Fin (n + 1) → ℝ) ⬝ᵥ Pi.single 0 1 :=
      dotProduct_self_pos (by simp)
    exact nonneg_of_mul_nonneg_left ((stretch_nonneg _ _).trans (hb _)) hpos
  have habove : ∀ x, stretch (realMatrix (n + 1) rows) x ≤
      (diagonalSum (gram (columns rows (n + 1))) : ℝ) * (x ⬝ᵥ x) := hsum ▸ stretch_le _
  have hle : (0 : ℚ) ≤ diagonalSum (gram (columns rows (n + 1))) := by
    exact_mod_cast hnonneg _ habove
  obtain ⟨L, hL, hLle, hstretch, hnear⟩ := boundSpectrum_spec hrows 20 hle habove
    (by simpa using hnonneg)
  refine ⟨L, hstretch, hsum ▸ by exact_mod_cast hLle, fun b hb => ?_, ?_⟩
  · simpa [hsum] using hnear b hb
  · rw [hasFullRank, hL, positivePivots_pencil_iff hrows, hrows.length]
    refine forall₂_congr fun x _ => ?_
    push_cast
    constructor <;> intro h <;> linarith

theorem lt_eigenvalues_of_det {A : Matrix (Fin (n + 1)) (Fin (n + 1)) ℝ} {s : ℝ}
    (hs : s * (Aᵀ * A).trace ^ n < A.det ^ 2) (hG : (Aᵀ * A).PosSemidef) (i : Fin (n + 1)) :
    s < hG.1.eigenvalues i := by
  have hnonneg : ∀ j, 0 ≤ hG.1.eigenvalues j := hG.eigenvalues_nonneg
  have hsum : ∑ j, hG.1.eigenvalues j = (Aᵀ * A).trace := by
    simpa using hG.1.trace_eq_sum_eigenvalues.symm
  have hprod : ∏ j, hG.1.eigenvalues j = A.det ^ 2 := by
    have hdet := hG.1.det_eq_prod_eigenvalues
    rw [det_mul, det_transpose, ← sq] at hdet
    simpa using hdet.symm
  have hle : ∀ j, hG.1.eigenvalues j ≤ (Aᵀ * A).trace := fun j =>
    hsum ▸ Finset.single_le_sum (fun k _ => hnonneg k) (Finset.mem_univ j)
  have hothers : ∏ j ∈ Finset.univ.erase i, hG.1.eigenvalues j ≤ (Aᵀ * A).trace ^ n := by
    refine (Finset.prod_le_prod (fun j _ => hnonneg j) fun j _ => hle j).trans_eq ?_
    rw [Finset.prod_const, Finset.card_erase_of_mem (Finset.mem_univ i), Finset.card_univ,
      Fintype.card_fin, Nat.add_sub_cancel]
  by_contra hge
  have hge : hG.1.eigenvalues i ≤ s := not_lt.mp hge
  refine hs.not_ge ?_
  calc A.det ^ 2 = hG.1.eigenvalues i * ∏ j ∈ Finset.univ.erase i, hG.1.eigenvalues j := by
        rw [← hprod, Finset.mul_prod_erase _ _ (Finset.mem_univ i)]
    _ ≤ s * (Aᵀ * A).trace ^ n := mul_le_mul hge hothers
        (Finset.prod_nonneg fun j _ => hnonneg j) ((hnonneg i).trans hge)

open Pointwise in
theorem lt_stretch_of_det {A : Matrix (Fin (n + 1)) (Fin (n + 1)) ℝ} {s : ℝ}
    (hs : s * (Aᵀ * A).trace ^ n < A.det ^ 2) {x : Fin (n + 1) → ℝ} (hx : x ≠ 0) :
    s * (x ⬝ᵥ x) < stretch A x := by
  have hG : (Aᵀ * A).PosSemidef := by simpa using posSemidef_conjTranspose_mul_self A
  have hS : (Aᵀ * A - s • 1).IsHermitian := hG.1.sub (by simp [IsHermitian])
  have hspectrum : spectrum ℝ (Aᵀ * A - s • 1) = Set.range hG.1.eigenvalues - {s} := by
    rw [← Algebra.algebraMap_eq_smul_one, ← spectrum.sub_singleton_eq,
      hG.1.spectrum_real_eq_range_eigenvalues]
  have hpos : (Aᵀ * A - s • 1).PosDef := by
    rw [hS.posDef_iff_eigenvalues_pos]
    intro i
    obtain ⟨_, ⟨j, rfl⟩, _, rfl, he⟩ := hspectrum.subset (hS.eigenvalues_mem_spectrum_real i)
    rw [← he]
    exact sub_pos.mpr (lt_eigenvalues_of_det hs hG j)
  have hlt := hpos.dotProduct_mulVec_pos hx
  rwa [sub_mulVec, smul_mulVec, one_mulVec, dotProduct_sub, dotProduct_smul, star_trivial,
    ← stretch_eq, sub_pos] at hlt

theorem hasFullRank_of_det {rows : List Vec} (hrows : HasShape (n + 1) (n + 1) rows)
    (h : (rankTolerance (n + 1) (n + 1) : ℝ) ^ 2 *
      ((realMatrix (n + 1) rows)ᵀ * realMatrix (n + 1) rows).trace ^ (n + 1) <
        (realMatrix (n + 1) rows).det ^ 2) : hasFullRank rows (n + 1) = true := by
  obtain ⟨L, -, hL, -, hiff⟩ := exists_hasFullRank_iff hrows
  rw [pow_succ' (trace _), ← mul_assoc] at h
  refine hiff.mpr fun x hx => lt_of_le_of_lt ?_ (lt_stretch_of_det h hx)
  have := dotProduct_self_pos hx
  gcongr

end Singular

end Orthant
