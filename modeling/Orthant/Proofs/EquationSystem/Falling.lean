import Mathlib
import Orthant.Proofs.EquationSystem.Listing
import Orthant.Proofs.Number.Range

/-! # Rows that fall

Rows without repeated exponents and without zeros are collected as they are. They are listed so that their
exponents fall, with coefficients that keep their signs.
-/

namespace Orthant

/-! ## The order of exponents -/

/-- The order in which exponents fall is the one of lists whose entries are compared the other way. -/
theorem fallingLex_iff : ∀ {a b : List ℤ}, fallingLex a b = true ↔
    a.map OrderDual.toDual ≤ b.map OrderDual.toDual
  | [], b => by simp [fallingLex, ← not_lt]
  | _ :: _, [] => by simp [fallingLex, ← not_lt]
  | x :: a, y :: b => by
    rw [fallingLex, List.map_cons, List.map_cons, ← not_lt, List.cons_lt_cons_iff]
    split
    case isTrue h => simp [h, fallingLex_iff]
    case isFalse h => simp [Ne.symm h, lt_iff_le_and_ne]

theorem fallingLex_antisymm {a b : List ℤ} (hab : fallingLex a b = true)
    (hba : fallingLex b a = true) : a = b :=
  List.map_injective_iff.mpr OrderDual.toDual.injective
    (le_antisymm (fallingLex_iff.mp hab) (fallingLex_iff.mp hba))

theorem fallingLex_of_lt {a b : List ℤ} (hlen : a.length = b.length) (h : b < a) :
    fallingLex a b = true := by
  induction a generalizing b with
  | nil => rfl
  | cons x a ih =>
    cases b with
    | nil => cases hlen
    | cons y b =>
      rw [fallingLex]
      rcases List.cons_lt_cons_iff.mp h with hlt | ⟨rfl, hlt⟩
      · rw [if_neg hlt.ne']
        exact decide_eq_true hlt
      · rw [if_pos rfl]
        exact ih (Nat.succ.inj hlen) hlt

theorem lt_of_fallingLex {a b : List ℤ} (hlen : a.length = b.length) (hne : a ≠ b)
    (h : fallingLex a b = true) : b < a := by
  rcases lt_trichotomy a b with hlt | heq | hlt
  · exact absurd (fallingLex_antisymm h (fallingLex_of_lt hlen.symm hlt)) hne
  · exact absurd heq hne
  · exact hlt

namespace Equation

variable {K : Type} [Field K] [Exact K] {e : Equation K} {r : Row K} {rows : List (Row K)} {n : ℕ}

/-! ## Collecting -/

theorem insert_of_notMem (hr : r.2.isZero = false) (h : r.1 ∉ e.map Prod.fst) :
    insert r e = e ++ [r] := by
  induction e with
  | nil => rw [insert, hr]; rfl
  | cons s e ih =>
    rw [List.map_cons, List.mem_cons, not_or] at h
    rw [insert, if_neg (Ne.symm h.1), ih h.2]
    rfl

theorem foldl_insert_of_nodup (hzero : ∀ r ∈ rows, r.2.isZero = false)
    (hnodup : ((e ++ rows).map Prod.fst).Nodup) :
    rows.foldl (fun acc r => insert r acc) e = e ++ rows := by
  induction rows generalizing e with
  | nil => rw [List.foldl_nil, List.append_nil]
  | cons r rows ih =>
    obtain ⟨hr, hrows⟩ := List.forall_mem_cons.mp hzero
    have hnot : r.1 ∉ e.map Prod.fst := by
      rw [List.map_append, List.nodup_append] at hnodup
      exact fun hmem => hnodup.2.2 _ hmem r.1 (by simp) rfl
    rw [List.foldl_cons, insert_of_notMem hr hnot, ih hrows (by simpa using hnodup),
      List.append_assoc, List.singleton_append]

theorem collect_of_nodup (hrows : ∀ r ∈ rows, r.2.isZero = false ∧ r.2 ≠ .undefined)
    (hnodup : (rows.map Prod.fst).Nodup) (width : ℕ) : collect width rows = rows := by
  have hfold := foldl_insert_of_nodup (e := []) (fun r hr => (hrows r hr).1) hnodup
  rw [collect, hfold, List.nil_append, if_neg]
  intro hany
  obtain ⟨r, hr, hundefined⟩ := List.any_eq_true.mp hany
  exact (hrows r hr).2 (Number.isUndefined_iff.mp hundefined)

/-! ## Listing -/

omit [Field K] in
/-- Rows are listed in falling order, and their coefficients change as numbers that are made inexact
together do. -/
theorem exists_listing_falling {P : (Number K → Number K) → Prop}
    (hunify : ∀ cs, ∃ g, Number.unify cs = cs.map g ∧ P g) (he : e ≠ []) (k : ℕ) :
    ∃ (e' : Equation K) (g : Number K → Number K), e'.Perm e ∧
      e'.Pairwise (fun r s => fallingLex r.1 s.1 = true) ∧
      listing k e = e'.map (fun r => (r.1, g r.2)) ∧ P g := by
  obtain ⟨g, hg, hP⟩ := hunify ((e.mergeSort fun r s => fallingLex r.1 s.1).map Prod.snd)
  refine ⟨_, g, List.mergeSort_perm _ _, ?_, listing_eq_map he hg, hP⟩
  refine List.pairwise_mergeSort (fun r s t hrs hst => ?_) (fun r s => ?_) e
  · exact fallingLex_iff.mpr ((fallingLex_iff.mp hrs).trans (fallingLex_iff.mp hst))
  · rw [Bool.or_eq_true, fallingLex_iff, fallingLex_iff]
    exact le_total _ _

theorem IsReduced.pairwise_listing (h : e.IsReduced) (hlen : ∀ r ∈ e, r.1.length = n) (k : ℕ) :
    (e.listing k).Pairwise fun r s => s.1 < r.1 := by
  by_cases hne : e = []
  · subst hne
    exact List.pairwise_singleton _ _
  · obtain ⟨e', g, hperm, hfall, hlisting, -⟩ :=
      exists_listing_falling (P := fun _ => True) Number.exists_unify_map hne k
    have hnodup : e'.Pairwise fun r s => r.1 ≠ s.1 :=
      List.pairwise_map.mp ((hperm.map Prod.fst).nodup_iff.mpr h.nodup)
    rw [hlisting, List.pairwise_map]
    refine (hfall.and hnodup).imp_of_mem fun {r s} hr hs hrs => ?_
    have hlen' : r.1.length = s.1.length := by
      rw [hlen r (hperm.mem_iff.mp hr), hlen s (hperm.mem_iff.mp hs)]
    exact lt_of_fallingLex hlen' hrs.2 hrs.1

/-- The rows are those of a polynomial in `n` names that is given by its coefficients: exponents fall,
and a zero stands only for no rows at all. -/
structure Lists (e : Equation K) (n : ℕ) (f : List ℤ → K) : Prop where
  falling : e.Pairwise fun r s => s.1 < r.1
  exact : e.isExact
  mem_iff : ∀ a, ∀ c ≠ 0, (a, .exact c) ∈ e ↔ f a = c
  zero_iff : ∀ a, (a, .exact 0) ∈ e ↔ a = List.replicate n 0 ∧ ∀ b, f b = 0

theorem IsReduced.lists_listing [LawfulExact K] (h : e.IsReduced) (he : e.isExact)
    (hlen : ∀ r ∈ e, r.1.length = n) : (e.listing n).Lists n e.coefficientAt := by
  by_cases hne : e = []
  · subst hne
    refine ⟨List.pairwise_singleton _ _, rfl, fun a c hc => ?_, fun a => ?_⟩
    · simp [listing_nil, Number.zero, LawfulExact.ofRat_eq, coefficientAt, hc, hc.symm]
    · simp [listing_nil, Number.zero, LawfulExact.ofRat_eq, coefficientAt]
  · have hperm := listing_perm he hne n
    refine ⟨h.pairwise_listing hlen n, ?_, fun a c hc => ?_, fun a => ?_⟩
    · exact isExact_iff.mpr fun r hr => isExact_iff.mp he r (hperm.mem_iff.mp hr)
    · exact hperm.mem_iff.trans (h.mem_iff he hc)
    · constructor
      · intro hmem
        exact absurd rfl (h.nonzero _ (hperm.mem_iff.mp hmem))
      · rintro ⟨-, hzero⟩
        exact absurd ((h.eq_nil_iff he).mpr hzero) hne

end Equation

end Orthant
