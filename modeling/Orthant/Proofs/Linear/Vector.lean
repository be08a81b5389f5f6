import Mathlib
import Orthant.Linear.Vector

/-! # Vectors by their entries

Entries of sums and multiples, products of vectors as sums over places, and the sublists of a given
length.
-/

namespace Orthant

open Finset

/-! ## Entries -/

theorem entry_of_length_le {v : Vec} {i : ℕ} (h : v.length ≤ i) : entry v i = 0 := by
  simp [entry, List.getElem?_eq_none h]

theorem entry_eq_getElem {v : Vec} {i : ℕ} (h : i < v.length) : entry v i = v[i] := by
  simp [entry, h]

@[simp] theorem entry_map_range (f : ℕ → ℚ) {n i : ℕ} (h : i < n) :
    entry ((List.range n).map f) i = f i := by
  rw [entry_eq_getElem (by simpa using h)]
  simp

theorem entry_append_left {u v : Vec} {i : ℕ} (h : i < u.length) :
    entry (u ++ v) i = entry u i := by
  simp [entry, List.getElem?_append_left h]

theorem entry_append_right (u v : Vec) (i : ℕ) : entry (u ++ v) (u.length + i) = entry v i := by
  simp [entry, List.getElem?_append_right]

theorem entry_drop (v : Vec) (n i : ℕ) : entry (v.drop n) i = entry v (n + i) := by
  simp [entry]

theorem entry_scaleVec (f : ℚ) (v : Vec) (i : ℕ) : entry (scaleVec f v) i = f * entry v i := by
  by_cases h : i < v.length
  · rw [entry_eq_getElem h, entry_eq_getElem (by simpa [scaleVec] using h)]
    simp [scaleVec]
  · rw [entry_of_length_le (not_lt.mp h), entry_of_length_le (by simpa [scaleVec] using h), mul_zero]

theorem scaleVec_scaleVec (s t : ℚ) (v : Vec) : scaleVec s (scaleVec t v) = scaleVec (s * t) v := by
  simp [scaleVec, mul_assoc]

theorem scaleVec_one (v : Vec) : scaleVec 1 v = v := by simp [scaleVec]

theorem length_subScaled (u v : Vec) (f : ℚ) :
    (subScaled u f v).length = min u.length v.length := by
  simp [subScaled]

theorem entry_subScaled {u v : Vec} {f : ℚ} (h : u.length = v.length) (i : ℕ) :
    entry (subScaled u f v) i = entry u i - f * entry v i := by
  by_cases hi : i < u.length
  · have hv : i < v.length := h ▸ hi
    rw [entry_eq_getElem hi, entry_eq_getElem hv,
      entry_eq_getElem (by rw [length_subScaled, ← h, min_self]; exact hi)]
    simp [subScaled]
  · have hu : u.length ≤ i := not_lt.mp hi
    have hs : (subScaled u f v).length ≤ i := by rwa [length_subScaled, ← h, min_self]
    rw [entry_of_length_le hs, entry_of_length_le hu, entry_of_length_le (h ▸ hu), mul_zero,
      sub_zero]

/-- The product of vectors as a sum over the places of the first one. -/
theorem dot_eq_sum (u v : Vec) : dot u v = ∑ i ∈ range u.length, entry u i * entry v i := by
  induction u generalizing v with
  | nil => simp [dot]
  | cons x u ih =>
    cases v with
    | nil => simp [dot, entry]
    | cons y v =>
      rw [dot, ih, List.length_cons, sum_range_succ']
      simp [entry, add_comm]

theorem dot_eq_sum_of_le {u v : Vec} {n : ℕ} (h : u.length ≤ n) :
    dot u v = ∑ i ∈ range n, entry u i * entry v i := by
  rw [dot_eq_sum]
  refine sum_subset (range_mono h) fun i _ hi => ?_
  rw [entry_of_length_le (not_lt.mp fun hlt => hi (mem_range.mpr hlt)), zero_mul]

/-! ## Sublists of a given length -/

theorem mem_choices {α : Type} {s l : List α} {k : ℕ} :
    s ∈ choices k l ↔ s.Sublist l ∧ s.length = k := by
  induction l generalizing s k with
  | nil => cases k <;> cases s <;> simp [choices]
  | cons x l ih =>
    cases k with
    | zero =>
      simp only [choices, List.mem_singleton, List.length_eq_zero_iff]
      exact ⟨fun h => ⟨h ▸ List.nil_sublist _, h⟩, And.right⟩
    | succ k =>
      simp only [choices, List.mem_append, List.mem_map, ih]
      constructor
      · rintro (⟨r, ⟨hr, hk⟩, rfl⟩ | ⟨hs, hk⟩)
        · exact ⟨hr.cons_cons x, by simp [hk]⟩
        · exact ⟨hs.cons x, hk⟩
      · rintro ⟨hs, hk⟩
        cases hs with
        | cons _ hs => exact Or.inr ⟨hs, hk⟩
        | cons_cons _ hs => exact Or.inl ⟨_, ⟨hs, by simpa using hk⟩, rfl⟩

theorem mem_choices_range {s : List ℕ} {k m : ℕ} : s ∈ choices k (List.range m) ↔
    s.Pairwise (· < ·) ∧ s.length = k ∧ ∀ i ∈ s, i < m := by
  rw [mem_choices]
  constructor
  · rintro ⟨hs, hl⟩
    exact ⟨List.pairwise_lt_range.sublist hs, hl, fun i hi => List.mem_range.mp (hs.subset hi)⟩
  · rintro ⟨hp, hl, hi⟩
    refine ⟨List.sublist_of_subperm_of_pairwise ?_ hp List.pairwise_lt_range, hl⟩
    exact List.subperm_of_subset hp.nodup fun i h => List.mem_range.mpr (hi i h)

theorem choices_pairwise {α : Type} [LinearOrder α] {l : List α} (h : l.Pairwise (· < ·))
    (k : ℕ) : (choices k l).Pairwise (· < ·) := by
  induction l generalizing k with
  | nil => cases k <;> simp [choices]
  | cons x l ih =>
    cases k with
    | zero => simp [choices]
    | succ k =>
      obtain ⟨hx, hl⟩ := List.pairwise_cons.mp h
      rw [choices, List.pairwise_append, List.pairwise_map]
      refine ⟨(ih hl k).imp fun h => List.Lex.cons h, ih hl (k + 1), ?_⟩
      intro s hs t ht
      obtain ⟨r, -, rfl⟩ := List.mem_map.mp hs
      obtain ⟨ht, hk⟩ := mem_choices.mp ht
      cases t with
      | nil => simp at hk
      | cons y t => exact List.Lex.rel (hx y (ht.subset List.mem_cons_self))

end Orthant
