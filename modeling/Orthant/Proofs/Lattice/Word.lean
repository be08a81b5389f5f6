import Mathlib
import Orthant.Lattice.Word
import Orthant.Proofs.Except

/-! # Words

A word keeps its value when it is stored or wrapped. Products of vectors are sums of products of
coordinates.
-/

namespace Orthant

/-! ## The range of words -/

theorem wrap_of_isWord {n : ℤ} (h : isWord n = true) : wrap n = n := if_pos h

theorem isWord_iff {n : ℤ} : isWord n = true ↔ wordMin ≤ n ∧ n ≤ wordMax := by
  simp [isWord]

theorem isWord_wrap (n : ℤ) : isWord (wrap n) = true := by
  rw [wrap]
  split
  · assumption
  · rw [isWord_iff]
    have hlo := Int.le_bmod (x := n) (m := 18446744073709551616) (by decide)
    have hhi := Int.bmod_lt (x := n) (m := 18446744073709551616) (by decide)
    simp only [wordMin, wordMax]
    omega

theorem isWord_neg {n : ℤ} (h : isWord n = true) (hn : 0 ≤ n) : isWord (-n) = true := by
  rw [isWord_iff] at h ⊢
  simp only [wordMin, wordMax] at h ⊢
  omega

theorem le_neg_of_le_wrap {n b : ℤ} (hn : isWord (-n) = true) (h : b ≤ wrap n) : -n ≤ -b := by
  obtain ⟨hmin, hmax⟩ := isWord_iff.mp hn
  by_cases hw : isWord n = true
  · rw [wrap_of_isWord hw] at h
    omega
  · have hn' : n = 9223372036854775808 := by
      by_contra hne
      refine hw (isWord_iff.mpr ⟨?_, ?_⟩) <;> simp only [wordMin, wordMax] at * <;> omega
    subst hn'
    have : wrap 9223372036854775808 = -9223372036854775808 := by decide
    omega

/-- What all elements of a list satisfy, a coordinate does, if 0 does. -/
theorem getD_of_forall {P : ℤ → Prop} {l : List ℤ} (h : ∀ x ∈ l, P x) (h0 : P 0) (k : ℕ) :
    P (l.getD k 0) := by
  by_cases hk : k < l.length
  · rw [List.getD_eq_getElem _ _ hk]
    exact h _ (List.getElem_mem hk)
  · rwa [List.getD_eq_default _ _ (by omega)]

theorem isWord_getD_sub {p q : List ℤ} (hp : ∀ x ∈ p, 0 ≤ x ∧ isWord x = true)
    (hq : ∀ x ∈ q, 0 ≤ x ∧ isWord x = true) (r : ℕ) : isWord (q.getD r 0 - p.getD r 0) = true := by
  obtain ⟨hp0, hp⟩ := getD_of_forall hp ⟨le_rfl, rfl⟩ r
  obtain ⟨hq0, hq⟩ := getD_of_forall hq ⟨le_rfl, rfl⟩ r
  rw [isWord_iff] at *
  simp only [wordMin, wordMax] at *
  omega

theorem toWord_eq_ok {x y : ℤ} (h : toWord x = .ok y) : y = x := by
  rw [toWord] at h
  split at h <;> cases h
  rfl

theorem mapM_toWord_iff {l : List ℤ} : l.mapM toWord = .ok l ↔ ∀ x ∈ l, isWord x = true := by
  have hiff : ∀ x, (∃ y, toWord x = .ok y) ↔ isWord x = true := fun x => by
    rw [toWord]
    split <;> simp_all [fail]
  constructor
  · intro h x hx
    obtain ⟨y, -, hy⟩ := (mapM_mem h).1 x hx
    exact (hiff x).mp ⟨y, hy⟩
  · intro h
    have := mapM_eq_ok (f := toWord) (g := id) fun x hx => by
      obtain ⟨y, hy⟩ := (hiff x).mpr (h x hx)
      rw [hy, toWord_eq_ok hy]
      rfl
    simpa using this

/-! ## Products -/

theorem dotInt_eq_sum {n : ℕ} {u v : List ℤ} (hv : v.length = n) :
    dotInt u v = ∑ i : Fin n, u.getD i 0 * v.getD i 0 := by
  induction u generalizing n v with
  | nil => cases v <;> simp [dotInt]
  | cons x u ih =>
    cases v with
    | nil => subst hv; simp [dotInt]
    | cons y v =>
      subst hv
      rw [List.length_cons, Fin.sum_univ_succ, dotInt, ih rfl]
      simp

theorem dotInt_neg (u v : List ℤ) : dotInt (u.map fun x => -x) v = -dotInt u v := by
  induction u generalizing v with
  | nil => cases v <;> rfl
  | cons x u ih =>
    cases v with
    | nil => rfl
    | cons y v =>
      rw [List.map_cons, dotInt, dotInt, ih]
      ring

end Orthant
