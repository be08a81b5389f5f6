import Mathlib
import Orthant.Proofs.EquationSystem.Specialization
import Orthant.Proofs.Expr.Plain
import Orthant.Support.Basic

/-! # Rows in chosen variables

The rows of a polynomial in all of its names are those in the variables when it has no other names.
They are sorted, so they fall; they have the values of the polynomial; and in another order of the
variables they are the same rows with their columns exchanged.
-/

namespace Orthant

open MvPolynomial

/-! ## Sorting -/

theorem compareFalling_swap (a b : List ℕ) : (compareFalling a b).swap = compareFalling b a := by
  fun_induction compareFalling a b with
  | case1 => rfl
  | case2 => rfl
  | case3 => rfl
  | case4 a as bs ih => rw [ih, compareFalling, if_pos rfl]
  | case5 a as b bs hne hlt =>
    rw [compareFalling, if_neg (Ne.symm hne), if_neg (not_lt.mpr hlt.le)]
    rfl
  | case6 a as b bs hne hle =>
    rw [compareFalling, if_neg (Ne.symm hne), if_pos (lt_of_le_of_ne (not_lt.mp hle) hne)]
    rfl

theorem compareFalling_trans {a b c : List ℕ} (hab : compareFalling a b ≠ .gt)
    (hbc : compareFalling b c ≠ .gt) : compareFalling a c ≠ .gt := by
  induction a generalizing b c with
  | nil => cases c <;> simp [compareFalling]
  | cons x a ih =>
    cases b with
    | nil => exact absurd rfl hab
    | cons y b =>
      cases c with
      | nil => exact absurd rfl hbc
      | cons z c =>
        simp only [compareFalling] at hab hbc ⊢
        grind

/-- Rows with distinct exponents of one length fall when they are sorted. -/
theorem pairwise_mergeSort {rows : List (List ℕ × ℚ)} {n : ℕ} (hlen : ∀ t ∈ rows, t.1.length = n)
    (hnodup : (rows.map Prod.fst).Nodup) :
    (rows.mergeSort fun s t => compareFalling s.1 t.1 != .gt).Pairwise fun s t => t.1 < s.1 := by
  have hperm : (rows.mergeSort fun s t => compareFalling s.1 t.1 != .gt).Perm rows :=
    List.mergeSort_perm _ _
  have hsorted : (rows.mergeSort fun s t => compareFalling s.1 t.1 != .gt).Pairwise
      fun s t => (compareFalling s.1 t.1 != .gt) = true := by
    refine List.pairwise_mergeSort (fun a b c hab hbc => ?_) (fun a b => ?_) rows
    · rw [bne_iff_ne] at hab hbc ⊢
      exact compareFalling_trans hab hbc
    · rw [← compareFalling_swap a.1 b.1]
      cases compareFalling a.1 b.1 <;> rfl
  have hdistinct : (rows.mergeSort fun s t => compareFalling s.1 t.1 != .gt).Pairwise
      fun s t => s.1 ≠ t.1 :=
    List.pairwise_map.mp ((hperm.map Prod.fst).nodup_iff.mpr hnodup)
  refine (hsorted.and hdistinct).imp_of_mem fun {s t} hs ht ⟨hle, hne⟩ => ?_
  have hlen' : s.1.length = t.1.length :=
    (hlen s (hperm.mem_iff.mp hs)).trans (hlen t (hperm.mem_iff.mp ht)).symm
  have hcompares := compares_compareFalling hlen'
  cases h : compareFalling s.1 t.1 with
  | lt => simpa [h] using hcompares
  | eq => exact absurd (eq_of_compareFalling h) hne
  | gt => simp [h] at hle

theorem map_natCast_lt {a b : List ℕ} (h : a < b) : a.map Int.ofNat < b.map Int.ofNat := by
  induction a generalizing b with
  | nil =>
    cases b with
    | nil => exact absurd h (lt_irrefl _)
    | cons y b => exact List.nil_lt_cons _ _
  | cons x a ih =>
    cases b with
    | nil => exact absurd h (List.not_lt_nil _)
    | cons y b =>
      rw [List.map_cons, List.map_cons, List.cons_lt_cons_iff]
      rcases List.cons_lt_cons_iff.mp h with hlt | ⟨rfl, hlt⟩
      · exact .inl (Int.ofNat_lt.mpr hlt)
      · exact .inr ⟨rfl, ih hlt⟩

/-! ## Exponents of names -/

namespace Polynomial

variable {all names : List String} {a : List ℕ} {s : String}

def exponentOf (all : List String) (a : List ℕ) (s : String) : ℕ := ((all.zip a).lookup s).getD 0

theorem exponentOf_of_mem (hall : all.Nodup) {p : String × ℕ} (h : p ∈ all.zip a) :
    exponentOf all a p.1 = p.2 := by
  rw [exponentOf, EquationSystem.lookup_zip_of_mem hall h, Option.getD_some]

theorem exponentOf_of_notMem (hs : s ∉ all) : exponentOf all a s = 0 := by
  have hnone : (all.zip a).lookup s = none := by
    refine List.lookup_eq_none_iff.mpr fun p hp => ?_
    have : p.1 ∈ all := (List.of_mem_zip hp).1
    simpa using fun he : s = p.1 => hs (he ▸ this)
  rw [exponentOf, hnone, Option.getD_none]

theorem map_exponentOf (hall : all.Nodup) (hlen : a.length = all.length) :
    all.map (exponentOf all a) = a := by
  refine List.ext_getElem (by simp [hlen]) fun i hi hi' => ?_
  have hi : i < all.length := by simpa using hi
  have hmem : (all[i], a[i]) ∈ all.zip a := by
    rw [← List.getElem_zip (h := by simp [hi, hi'])]
    exact List.getElem_mem _
  rw [List.getElem_map]
  exact exponentOf_of_mem hall hmem

theorem zip_map_self {β : Type} (names : List String) (f : String → β) :
    names.zip (names.map f) = names.map fun s => (s, f s) := by
  simpa using List.zip_map' (f := id) (g := f) (l := names)

theorem isIn_iff (hall : all.Nodup) (hlen : a.length = all.length) :
    isIn all names a = true ↔ ∀ s, s ∉ names → exponentOf all a s = 0 := by
  simp only [isIn, List.all_eq_true, Bool.or_eq_true, decide_eq_true_eq, List.contains_iff_mem]
  constructor
  · intro h s hs
    by_cases hmem : s ∈ all
    · obtain ⟨i, hi, rfl⟩ := List.mem_iff_getElem.mp hmem
      have hzip : (all[i], a[i]) ∈ all.zip a := by
        rw [← List.getElem_zip (h := by simp [hi, hlen])]
        exact List.getElem_mem _
      rw [exponentOf_of_mem hall hzip]
      exact (h _ hzip).resolve_right hs
    · exact exponentOf_of_notMem hmem
  · intro h p hp
    by_cases hs : p.1 ∈ names
    · exact .inr hs
    · exact .inl ((exponentOf_of_mem hall hp).symm.trans (h _ hs))

/-! ## Rows -/

/-- All names of the polynomial are among the variables. -/
structure Covers (all names : List String) (p : Sparse ℚ) : Prop where
  all_nodup : all.Nodup
  nodup : names.Nodup
  normal : p.IsNormal all.length
  covers : ∀ t ∈ p, ∀ s, s ∉ names → exponentOf all t.1 s = 0

theorem rowsIn_perm (all names : List String) (p : Sparse ℚ) :
    (rowsIn all names p).Perm (p.map fun t => (names.map (exponentOf all t.1), t.2)) :=
  List.mergeSort_perm _ _

theorem exists_of_mem_rowsIn {r : List ℕ × ℚ} {p : Sparse ℚ}
    (hr : r ∈ rowsIn all names p) :
    ∃ t ∈ p, r = (names.map (exponentOf all t.1), t.2) := by
  obtain ⟨t, ht, rfl⟩ := List.mem_map.mp ((rowsIn_perm all names p).mem_iff.mp hr)
  exact ⟨t, ht, rfl⟩

theorem prod_exponentOf (hall : all.Nodup) (hn : names.Nodup) (hlen : a.length = all.length)
    (hcovers : ∀ s, s ∉ names → exponentOf all a s = 0) (v : String → ℚ) :
    (names.map fun s => v s ^ exponentOf all a s).prod = Sparse.powers (all.map v) a := by
  have hpowers : Sparse.powers (all.map v) a =
      ∏ s ∈ all.toFinset, v s ^ exponentOf all a s := by
    rw [List.prod_toFinset _ hall, Sparse.powers]
    conv_lhs => rw [← map_exponentOf hall hlen]
    rw [List.zipWith_map, List.zipWith_self]
  rw [hpowers, ← List.prod_toFinset _ hn]
  calc ∏ s ∈ names.toFinset, v s ^ exponentOf all a s
      = ∏ s ∈ names.toFinset ∪ all.toFinset, v s ^ exponentOf all a s := by
        refine Finset.prod_subset Finset.subset_union_left fun s _ hs => ?_
        rw [hcovers s (by simpa using hs), pow_zero]
    _ = ∏ s ∈ all.toFinset, v s ^ exponentOf all a s := by
        refine (Finset.prod_subset Finset.subset_union_right fun s _ hs => ?_).symm
        rw [exponentOf_of_notMem (by simpa using hs), pow_zero]

namespace Covers

variable {p : Sparse ℚ} (h : Covers all names p)

include h

theorem nodup_rows : ((p.map fun t => (names.map (exponentOf all t.1), t.2)).map Prod.fst).Nodup := by
  rw [List.map_map]
  have hfalling : (p.map Prod.fst).Nodup :=
    List.pairwise_map.mpr (h.normal.falling.imp fun hlt => hlt.ne')
  have hinj : ∀ t ∈ p, ∀ u ∈ p, names.map (exponentOf all t.1) = names.map (exponentOf all u.1) →
      t.1 = u.1 := by
    intro t ht u hu he
    rw [← map_exponentOf h.all_nodup (h.normal.length t ht),
      ← map_exponentOf h.all_nodup (h.normal.length u hu)]
    refine List.map_congr_left fun s _ => ?_
    by_cases hs : s ∈ names
    · exact List.map_inj_left.mp he s hs
    · rw [h.covers t ht s hs, h.covers u hu s hs]
  refine List.pairwise_map.mpr ((List.pairwise_map.mp hfalling).imp_of_mem ?_)
  exact fun {t u} ht hu hne he => hne (hinj t ht u hu he)

theorem pairwise_rowsIn : (rowsIn all names p).Pairwise fun s t => t.1 < s.1 := by
  refine pairwise_mergeSort (n := names.length) (fun r hr => ?_) h.nodup_rows
  obtain ⟨t, -, rfl⟩ := List.mem_map.mp hr
  exact List.length_map _

theorem eval_rowsIn (v : String → ℚ) :
    ((rowsIn all names p).map fun r => r.2 * ((names.zip r.1).map fun q => v q.1 ^ q.2).prod).sum =
      Sparse.eval (all.map v) p := by
  rw [((rowsIn_perm all names p).map _).sum_eq, List.map_map, Sparse.eval]
  congr 1
  refine List.map_congr_left fun t ht => ?_
  rw [Function.comp_apply, zip_map_self, List.map_map, ← prod_exponentOf h.all_nodup h.nodup
    (h.normal.length t ht) (h.covers t ht) v]
  rfl

end Covers

end Polynomial

end Orthant
