import Mathlib
import Orthant.Proofs.Polytope.Representation
import Orthant.Proofs.Triangulation.Covering

/-! # The corners of a multiple of the unit simplex

The exponents of the powers `x1^d, ..., xn^d` and of a constant are the corners of a simplex. The
product of all variables lies in its interior exactly if the degree is above the number of variables.
Then the normals of the facets have entries of magnitude 1 at most, so no product with them wraps.
-/

namespace Orthant

open Finset

/-- The exponents of the power of the variable at a place, or of the constant if there is none. -/
def corner (n : ℕ) (d : ℤ) (i : ℕ) : List ℤ := (List.range n).map fun j => if i = j then d else 0

/-- The powers of all variables and the constant. -/
def corners (n : ℕ) (d : ℤ) : List (List ℤ) := (List.range (n + 1)).map (corner n d)

/-- The exponents of the product of all variables. -/
def ones (n : ℕ) : List ℤ := List.replicate n 1

variable {n : ℕ} {d : ℤ}

@[simp] theorem length_corner (n : ℕ) (d : ℤ) (i : ℕ) : (corner n d i).length = n := by
  simp [corner]

@[simp] theorem length_ones (n : ℕ) : (ones n).length = n := List.length_replicate

@[simp] theorem length_corners (n : ℕ) (d : ℤ) : (corners n d).length = n + 1 := by simp [corners]

theorem mem_corners {q : List ℤ} : q ∈ corners n d ↔ ∃ i ≤ n, corner n d i = q := by
  simp [corners]

theorem getD_corner {r : ℕ} (hr : r < n) (i : ℕ) :
    (corner n d i).getD r 0 = if i = r then d else 0 := by
  simp [corner, hr]

theorem getD_ones {r : ℕ} (hr : r < n) : (ones n).getD r 0 = 1 := by simp [ones, hr]

theorem corner_lt_corner (hd : 0 < d) {i j : ℕ} (hij : i < j) (hi : i < n) :
    corner n d j < corner n d i := by
  refine List.lt_iff_exists.mpr (.inr ⟨i, by simpa, by simpa, fun k hk => ?_, ?_⟩)
  · simp [corner, (hk.trans hij).ne', hk.ne']
  · simpa [corner, hij.ne'] using hd

theorem pairwise_corners (hd : 0 < d) : (corners n d).Pairwise (· > ·) := by
  refine List.pairwise_map.mpr (List.pairwise_lt_range.imp_of_mem fun {i j} _ hj hij => ?_)
  exact corner_lt_corner hd hij (hij.trans_le (Nat.lt_succ_iff.mp (List.mem_range.mp hj)))

theorem corner_injective (hd : 0 < d) {i j : ℕ} (hi : i ≤ n) (hj : j ≤ n)
    (h : corner n d i = corner n d j) : i = j := by
  rcases lt_trichotomy i j with hij | hij | hij
  · exact absurd h (corner_lt_corner hd hij (by omega)).ne'
  · exact hij
  · exact absurd h (corner_lt_corner hd hij (by omega)).ne

theorem exists_forall_mem_of_length (hd : 0 < d) {qs : List (List ℤ)} (hnd : qs.Nodup)
    (hsub : ∀ q ∈ qs, q ∈ corners n d) (hlen : qs.length = n) :
    ∃ k, ∀ i ≤ n, i ≠ k → corner n d i ∈ qs := by
  have hcard : ((corners n d).toFinset \ qs.toFinset).card = 1 := by
    rw [card_sdiff_of_subset fun q hq => List.mem_toFinset.mpr (hsub q (List.mem_toFinset.mp hq)),
      List.toFinset_card_of_nodup ((pairwise_corners hd).imp ne_of_gt),
      List.toFinset_card_of_nodup hnd, length_corners, hlen, Nat.add_sub_cancel_left]
  obtain ⟨q, hq⟩ := card_eq_one.mp hcard
  obtain ⟨hqc, -⟩ := mem_sdiff.mp (hq ▸ mem_singleton_self q)
  obtain ⟨k, hk, rfl⟩ := mem_corners.mp (List.mem_toFinset.mp hqc)
  refine ⟨k, fun i hi hik => ?_⟩
  by_contra hnot
  have hout : corner n d i ∈ (corners n d).toFinset \ qs.toFinset :=
    mem_sdiff.mpr ⟨List.mem_toFinset.mpr (mem_corners.mpr ⟨i, hi, rfl⟩), by simpa using hnot⟩
  rw [hq, mem_singleton] at hout
  exact hik (corner_injective hd hi hk hout)

theorem ones_notMem_corners (hn : 1 ≤ n) (hcase : 2 ≤ n ∨ (n : ℤ) < d) : ones n ∉ corners n d := by
  rw [mem_corners]
  rintro ⟨i, -, h⟩
  have hat : ∀ r < n, (if i = r then d else 0) = 1 := fun r hr => by
    rw [← getD_corner hr, h, getD_ones hr]
  have h0 := hat 0 (by omega)
  rcases hcase with hcase | hcase
  · have h1 := hat 1 (by omega)
    split at h0 <;> split at h1 <;> omega
  · split at h0 <;> omega

/-! ## Products -/

theorem dotInt_corner {u : List ℤ} (hu : u.length = n) (i : ℕ) :
    dotInt u (corner n d i) = u.getD i 0 * d := by
  rw [dotInt_eq_sum (length_corner n d i)]
  simp only [getD_corner (Fin.isLt _), mul_ite, mul_zero]
  by_cases hi : i < n
  · rw [Fintype.sum_eq_single ⟨i, hi⟩ fun r hr => if_neg fun h => hr (Fin.ext h.symm), if_pos rfl]
  · rw [List.getD_eq_default _ _ (by omega), zero_mul]
    exact sum_eq_zero fun r _ => if_neg fun h => hi (by omega)

theorem dotInt_ones {u : List ℤ} (hu : u.length = n) : dotInt u (ones n) = u.sum := by
  subst hu
  induction u with
  | nil => rfl
  | cons x u ih =>
    rw [List.length_cons, ones, List.replicate_succ, dotInt, mul_one, List.sum_cons]
    exact congrArg (x + ·) ih

theorem abs_sum_le_length {u : List ℤ} (h : ∀ x ∈ u, |x| ≤ 1) : |u.sum| ≤ u.length := by
  induction u with
  | nil => rfl
  | cons x u ih =>
    obtain ⟨hx, hu⟩ := List.forall_mem_cons.mp h
    rw [List.sum_cons, List.length_cons]
    have := abs_add_le x u.sum
    have := ih hu
    push_cast
    linarith

namespace Facet

variable {f : Facet}

/-- A primitive normal whose hyperplane goes through all corners but one has small entries. -/
theorem abs_le_one_of_vanishing (hd : d ≠ 0) (hlen : f.normal.length = n)
    (hp : IsPrimitive f.normal) {k : ℕ}
    (hvanish : ∀ i ≤ n, i ≠ k → dotInt f.normal (corner n d i) = f.offset) :
    ∀ x ∈ f.normal, |x| ≤ 1 := by
  have hat : ∀ i ≤ n, i ≠ k → f.normal.getD i 0 * d = f.offset := fun i hi hik =>
    (dotInt_corner hlen i).symm.trans (hvanish i hi hik)
  obtain ⟨e, he⟩ : ∃ e, ∀ i < n, f.normal.getD i 0 = 0 ∨ f.normal.getD i 0 = e := by
    by_cases hkn : k = n
    · refine ⟨f.normal.getD 0 0, fun i hi => .inr ?_⟩
      exact mul_right_cancel₀ hd ((hat i hi.le (by omega)).trans (hat 0 (by omega) (by omega)).symm)
    · have hzero : f.offset = 0 := by
        rw [← hat n le_rfl (Ne.symm hkn), List.getD_eq_default _ _ hlen.le, zero_mul]
      refine ⟨f.normal.getD k 0, fun i hi => ?_⟩
      by_cases hik : i = k
      · exact .inr (by rw [hik])
      · exact .inl ((mul_eq_zero.mp ((hat i hi.le hik).trans hzero)).resolve_right hd)
  have hentry : ∀ x ∈ f.normal, x = 0 ∨ x = e := by
    intro x hx
    obtain ⟨i, hi, rfl⟩ := List.mem_iff_getElem.mp hx
    simpa [hi] using he i (hlen ▸ hi)
  have hunit : IsUnit e := hp e fun x hx => by
    rcases hentry x hx with rfl | rfl
    · exact dvd_zero e
    · exact dvd_rfl
  intro x hx
  rcases hentry x hx with rfl | rfl
  · simp
  · exact (Int.isUnit_iff_abs_eq.mp hunit).le

theorem abs_le_one_neg (hlen : f.normal.length = n) (hsmall : ∀ x ∈ f.normal, |x| ≤ 1) :
    f.neg.normal.length = n ∧ ∀ x ∈ f.neg.normal, |x| ≤ 1 := by
  refine ⟨by simpa [Facet.neg] using hlen, fun x hx => ?_⟩
  obtain ⟨y, hy, rfl⟩ := List.mem_map.mp hx
  rw [abs_neg]
  exact hsmall y hy

theorem fits_of_abs_le_one (hlen : f.normal.length = n) (hsmall : ∀ x ∈ f.normal, |x| ≤ 1)
    (hd : 1 ≤ d) (hword : isWord d = true) (hnd : (n : ℤ) ≤ d) :
    f.Fits (ones n :: corners n d) := by
  have hle : ∀ y : ℤ, |y| ≤ d → isWord y = true := by
    intro y hy
    have := abs_le.mp hy
    rw [isWord_iff] at hword ⊢
    simp only [wordMin, wordMax] at hword ⊢
    omega
  refine ⟨fun x hx => hle x ((hsmall x hx).trans hd), fun q hq => hle _ ?_⟩
  rcases List.mem_cons.mp hq with rfl | hq
  · rw [dotInt_ones hlen]
    exact (abs_sum_le_length hsmall).trans (hlen ▸ hnd)
  · obtain ⟨i, -, rfl⟩ := mem_corners.mp hq
    have hi : |f.normal.getD i 0| ≤ 1 := getD_of_forall hsmall (by simp) i
    rw [dotInt_corner hlen, abs_mul, abs_of_pos (by omega : 0 < d)]
    nlinarith [abs_nonneg (f.normal.getD i 0)]

end Facet

/-! ## The simplex -/

/-- Points that are the corners, with or without the product. -/
structure HasCorners (n : ℕ) (d : ℤ) (points : List (List ℤ)) : Prop where
  nodup : points.Nodup
  corner_mem : ∀ q ∈ corners n d, q ∈ points
  mem_cases : ∀ q ∈ points, q = ones n ∨ q ∈ corners n d

theorem hasCorners_corners (hd : 1 ≤ d) : HasCorners n d (corners n d) :=
  ⟨(pairwise_corners hd).imp ne_of_gt, fun _ => id, fun _ => .inr⟩

theorem hasCorners_of_perm {points : List (List ℤ)} (h : points.Perm (ones n :: corners n d))
    (hnd : (ones n :: corners n d).Nodup) : HasCorners n d points :=
  ⟨h.nodup_iff.mpr hnd, fun _ hq => h.mem_iff.mpr (List.mem_cons_of_mem _ hq),
    fun _ hq => List.mem_cons.mp (h.mem_iff.mp hq)⟩

namespace HasCorners

variable {points : List (List ℤ)} (h : HasCorners n d points)

include h

theorem length : ∀ q ∈ points, q.length = n := by
  intro q hq
  rcases h.mem_cases q hq with rfl | hq
  · exact length_ones n
  · obtain ⟨i, -, rfl⟩ := mem_corners.mp hq
    exact length_corner n d i

theorem isWord (hd : 1 ≤ d) (hword : isWord d = true) :
    ∀ q ∈ points, ∀ x ∈ q, 0 ≤ x ∧ Orthant.isWord x = true := by
  intro q hq x hx
  rcases h.mem_cases q hq with rfl | hq
  · obtain rfl := (List.mem_replicate.mp hx).2
    exact ⟨zero_le_one, rfl⟩
  · obtain ⟨i, -, rfl⟩ := mem_corners.mp hq
    obtain ⟨j, -, rfl⟩ := List.mem_map.mp hx
    split
    · exact ⟨by omega, hword⟩
    · exact ⟨le_rfl, rfl⟩

theorem pointSet_subset : pointSet n (corners n d) ⊆ pointSet n points := by
  rintro _ ⟨q, hq, rfl⟩
  exact ⟨q, h.corner_mem q hq, rfl⟩

theorem affineSpan_eq_top (hd : d ≠ 0) : affineSpan ℝ (pointSet n points) = ⊤ := by
  refine (affineSpan_eq_top_iff h.length).mpr fun x y hconst => ?_
  have hat : ∀ i ≤ n, ∑ r : Fin n, (((corner n d i).getD r 0 : ℤ) : ℚ) * x r = y := fun i hi =>
    hconst _ (h.corner_mem _ (mem_corners.mpr ⟨i, hi, rfl⟩))
  simp only [getD_corner (Fin.isLt _), Int.cast_ite, Int.cast_zero, ite_mul, zero_mul] at hat
  have hy : y = 0 := by
    rw [← hat n le_rfl]
    exact sum_eq_zero fun r _ => if_neg (by omega)
  refine ⟨funext fun i => ?_, hy⟩
  have hi := hat i i.isLt.le
  rw [Fintype.sum_eq_single i fun r hr => if_neg fun he => hr (Fin.ext he.symm), if_pos rfl, hy] at hi
  exact (mul_eq_zero.mp hi).resolve_left (Int.cast_ne_zero.mpr hd)

theorem ones_mem_interior (hd : (n : ℤ) < d) :
    realPoint n (ones n) ∈ interior (convexHull ℝ (pointSet n points)) := by
  have hpos : (0 : ℝ) < d := by exact_mod_cast (Nat.cast_nonneg n).trans_lt hd
  have hlt : (n : ℝ) < d := by exact_mod_cast hd
  let p : Fin (n + 1) → Fin n → ℝ := fun i => realPoint n (corner n d i)
  let w : Fin (n + 1) → ℝ := Fin.snoc (α := fun _ => ℝ) (fun _ => 1 / d) (1 - n / d)
  have hrange : Set.range p = pointSet n (corners n d) := by
    ext x
    constructor
    · rintro ⟨i, rfl⟩
      exact ⟨_, mem_corners.mpr ⟨i, Nat.lt_succ_iff.mp i.isLt, rfl⟩, rfl⟩
    · rintro ⟨q, hq, rfl⟩
      obtain ⟨i, hi, rfl⟩ := mem_corners.mp hq
      exact ⟨⟨i, Nat.lt_succ_of_le hi⟩, rfl⟩
  have hcorners : HasCorners n d (corners n d) := hasCorners_corners (by omega)
  have hsum : ∑ i, w i • p i = realPoint n (ones n) := by
    funext r
    rw [Finset.sum_apply, Fin.sum_univ_castSucc]
    simp only [p, w, realPoint, Pi.smul_apply, smul_eq_mul, Fin.snoc_castSucc, Fin.snoc_last,
      getD_corner r.isLt, getD_ones r.isLt, Fin.val_castSucc, Fin.val_last]
    rw [Fintype.sum_eq_single r fun i hi => by
      rw [if_neg fun he => hi (Fin.ext he), Int.cast_zero, mul_zero], if_pos rfl, if_neg (by omega)]
    field_simp
    simp
  rw [← hsum]
  refine interior_mono (convexHull_mono h.pointSet_subset) (hrange ▸ ?_)
  refine mem_interior_of_pos_weights (hrange ▸ hcorners.affineSpan_eq_top (by omega)) (fun i => ?_) ?_
  · refine Fin.lastCases ?_ (fun i => ?_) i
    · simpa [w, div_lt_one hpos] using hlt
    · simpa [w] using hpos
  · rw [Fin.sum_univ_castSucc]
    simp only [w, Fin.snoc_castSucc, Fin.snoc_last, sum_const, card_univ, Fintype.card_fin,
      nsmul_eq_mul]
    ring

theorem ones_notMem_interior (hn : 1 ≤ n) (hdn : d ≤ n) :
    realPoint n (ones n) ∉ interior (convexHull ℝ (pointSet n points)) := by
  have hle : ∀ q ∈ points, dotInt (ones n) q ≤ n := by
    intro q hq
    rcases h.mem_cases q hq with rfl | hq
    · rw [dotInt_ones (length_ones n)]
      simp [ones]
    · obtain ⟨i, -, rfl⟩ := mem_corners.mp hq
      rw [dotInt_corner (length_ones n)]
      by_cases hi : i < n
      · rwa [getD_ones hi, one_mul]
      · rw [List.getD_eq_default _ _ (by simpa using hi), zero_mul]
        exact Int.natCast_nonneg n
  intro hmem
  obtain ⟨ε, hε, hstep⟩ := exists_step_of_mem_interior hmem 1
  have hsum := convexHull_min (fun x hx => ?_) (Configuration.convex_normal_le (ones n) n) hstep
  · have hn' : (1 : ℝ) ≤ n := by exact_mod_cast hn
    simp only [Set.mem_ofPred_eq, getD_ones (Fin.isLt _), realPoint, Pi.add_apply, Pi.smul_apply,
      Pi.one_apply, sum_const, card_univ, Fintype.card_fin] at hsum
    simp at hsum
    nlinarith
  · obtain ⟨q, hq, rfl⟩ := hx
    rw [Set.mem_ofPred_eq, sum_realPoint_eq_dotInt _ (h.length q hq)]
    exact_mod_cast hle q hq

/-! ## Facets -/

variable (hn : 1 ≤ n) (hd : (n : ℤ) < d)

include hn hd

omit hn in
theorem dotInt_ones_lt {f : Facet} (hf : f.Supports n points) :
    dotInt f.normal (ones n) < f.offset := by
  let c : Configuration := ⟨points, n, []⟩
  have hc : c.IsFull :=
    (Configuration.isFull_iff_affineSpan h.length).mpr (h.affineSpan_eq_top (by omega))
  have hnonneg := Configuration.form_vector_nonneg hc hf
  obtain ⟨k, hk, hfk⟩ := hc.exists_vector_ne_zero (hf.ne_zero ℝ)
  have hpos := Configuration.pos_of_mem_interior hnonneg
    (lt_of_le_of_ne (hnonneg k hk) (Ne.symm hfk)) (h.ones_mem_interior hd)
  rwa [raise_realPoint, Facet.form_liftPoint ℝ (length_ones n), Int.cast_pos, sub_pos] at hpos

omit hn in
theorem mem_corners_of_bounding {c : Configuration} (hpoints : c.points = points) (hdim : c.dim = n)
    (hc : c.IsFull) {s : Finset ℕ} {k : ℕ} (hb : c.Bounding s k) {f : Facet}
    (hne : ∀ (K : Type) [Field K] [CharZero K], f.form c.dim K ≠ 0)
    (hzero : ∀ i ∈ s, i ≠ k → dotInt f.normal (c.pointAt i) = f.offset) :
    ∀ i ∈ s, i ≠ k → c.pointAt i ∈ corners n d := by
  subst hpoints hdim
  intro i hi hik
  refine (h.mem_cases _ (Configuration.pointAt_mem (Configuration.mem_placeSet.mp
    (hb.subset hi)))).resolve_left fun he => ?_
  have hat := hzero i hi hik
  rw [he] at hat
  rcases Configuration.one_side_of_vanishing hc hb hzero with hle | hge
  · exact (h.dotInt_ones_lt hd ⟨hne, hle⟩).ne hat
  · have hlt := h.dotInt_ones_lt hd (Facet.supports_neg hne hge)
    rw [Facet.neg, dotInt_neg, hat] at hlt
    exact lt_irrefl _ hlt

omit hn in
theorem exists_vanishing {L : List (List ℕ)} (hL : Polytope.FindsFacets n points L) {f : Facet}
    {l : List ℕ} (hl : l ∈ L) (hf : Facet.through? n (Polytope.pick points l) = some f) :
    ∃ k, ∀ i ≤ n, i ≠ k → dotInt f.normal (corner n d i) = f.offset := by
  let c : Configuration := ⟨points, n, []⟩
  have hc : c.IsFull :=
    (Configuration.isFull_iff_affineSpan h.length).mpr (h.affineSpan_eq_top (by omega))
  have hlt : ∀ i ∈ l, i < c.size := hL.lt l hl
  obtain ⟨F, hF, hlF⟩ := hL.on_facet l hl
  obtain ⟨s, k, hb, herase⟩ := Configuration.exists_bounding_of_through hc hlt hF hlF hf
  obtain ⟨-, hne, hvanish⟩ := Configuration.through_spec hc hlt hf
  have hzero : ∀ i ∈ s, i ≠ k → dotInt f.normal (c.pointAt i) = f.offset := fun i hi hik =>
    hvanish i (List.mem_toFinset.mp (herase (mem_erase.mpr ⟨hik, hi⟩)))
  -- The vertices of a simplex but one are as many different corners as there are variables.
  have hmem : ∀ q ∈ Polytope.pick points (s.erase k).sort,
      q ∈ corners n d ∧ dotInt f.normal q = f.offset := by
    intro q hq
    obtain ⟨i, hi, rfl⟩ := List.mem_map.mp hq
    obtain ⟨hik, hi⟩ := mem_erase.mp ((mem_sort _).mp hi)
    exact ⟨h.mem_corners_of_bounding hd rfl rfl hc hb hne hzero i hi hik, hzero i hi hik⟩
  have hnd : (Polytope.pick points (s.erase k).sort).Nodup := by
    refine (List.nodup_map_iff_inj_on (sort_nodup _ _)).mpr fun i hi j hj he => ?_
    have hsize : ∀ i ∈ (s.erase k).sort, i < points.length := fun i hi =>
      Configuration.mem_placeSet.mp (hb.subset (mem_of_mem_erase ((mem_sort _).mp hi)))
    rw [List.getD_eq_getElem _ _ (hsize i hi), List.getD_eq_getElem _ _ (hsize j hj)] at he
    exact h.nodup.getElem_inj_iff.mp he
  obtain ⟨k', hk'⟩ := exists_forall_mem_of_length (by omega) hnd (fun q hq => (hmem q hq).1) (by
    rw [Polytope.pick, List.length_map, length_sort, card_erase_of_mem hb.mem, hb.simplex.card]
    simp [c])
  exact ⟨k', fun i hi hik => (hmem _ (hk' i hi hik)).2⟩

variable {program : Polytope.FacetProgram}
  (hprogram : n ≠ 1 → Polytope.FindsFacets n points (program n points))

include hprogram

theorem abs_le_one_of_candidate {f : Facet}
    (hf : f ∈ (Polytope.ofPoints n points).candidates program) :
    f.normal.length = n ∧ ∀ x ∈ f.normal, |x| ≤ 1 := by
  rw [Polytope.candidates] at hf
  split at hf
  case isTrue h1 =>
    obtain rfl : n = 1 := h1
    rcases List.mem_pair.mp hf with rfl | rfl <;> exact ⟨rfl, by simp⟩
  case isFalse h1 =>
    obtain ⟨l, hl, hf⟩ := List.mem_filterMap.mp hf
    have hL := hprogram h1
    obtain ⟨k, hvanish⟩ := h.exists_vanishing hd hL hl hf
    have hlen := Polytope.pick_length (p := .ofPoints n points) h.length (hL.lt l hl)
    have hne : Polytope.pick points l ≠ [] :=
      List.ne_nil_of_length_pos (by rw [Polytope.pick, List.length_map, hL.length l hl]; omega)
    have hnormal := (Facet.through_eq_some hlen hf).1
    exact ⟨hnormal, Facet.abs_le_one_of_vanishing (by omega) hnormal
      (Facet.isPrimitive_of_through hlen hne hf) hvanish⟩

theorem productsFit (hword : Orthant.isWord d = true) :
    (Polytope.ofPoints n points).ProductsFit program := by
  have hfits : ∀ f : Facet, f.normal.length = n → (∀ x ∈ f.normal, |x| ≤ 1) → f.Fits points := by
    intro f hlen hsmall
    obtain ⟨hnormal, hproduct⟩ := Facet.fits_of_abs_le_one hlen hsmall (by omega) hword hd.le
    exact ⟨hnormal, fun q hq => hproduct q (List.mem_cons.mpr (h.mem_cases q hq))⟩
  intro f hf
  obtain ⟨hlen, hsmall⟩ := h.abs_le_one_of_candidate hn hd hprogram hf
  obtain ⟨hlen', hsmall'⟩ := Facet.abs_le_one_neg hlen hsmall
  exact ⟨hfits f hlen hsmall, fun _ => hfits f.neg hlen' hsmall'⟩

/-- The facets are found, their products are words, and the product lies strictly inside. -/
theorem exists_facets (hword : Orthant.isWord d = true) :
    ∃ fs, (Polytope.ofPoints n points).facets program = .ok fs ∧
      (∀ f ∈ fs, f.Fits (ones n :: corners n d)) ∧ strictlyInside fs (ones n) = true := by
  have hspan := h.affineSpan_eq_top (by omega)
  obtain ⟨fs, hfs, -, hsides, hfacets⟩ := Polytope.facets_returns h.length hspan
    (h.productsFit hn hd hprogram hword) hn hprogram
  have hfits : ∀ f ∈ fs, f.Fits (ones n :: corners n d) := by
    intro f' hf'
    obtain ⟨f, hf, hcase⟩ := Polytope.candidate_of_mem_facets hfs hf'
    obtain ⟨hlen, hsmall⟩ := h.abs_le_one_of_candidate hn hd hprogram hf
    rcases hcase with rfl | ⟨rfl, -⟩
    · exact Facet.fits_of_abs_le_one hlen hsmall (by omega) hword hd.le
    · obtain ⟨hlen, hsmall⟩ := Facet.abs_le_one_neg hlen hsmall
      exact Facet.fits_of_abs_le_one hlen hsmall (by omega) hword hd.le
  let c : Configuration := ⟨points, n, fs⟩
  have hc : c.IsFull := (Configuration.isFull_iff_affineSpan h.length).mpr hspan
  refine ⟨fs, hfs, hfits, ?_⟩
  exact (Configuration.strictlyInside_iff hc (fun f hf => (hsides f hf).supports) hfacets
    (length_ones n) fun f hf => (hfits f hf).product _ List.mem_cons_self).mpr
      (h.ones_mem_interior hd)

end HasCorners

end Orthant
