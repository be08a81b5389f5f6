import Mathlib
import Orthant.Triangulation.Walls

/-! # Ordered lists of cells

Cells that are kept in order, none twice, are determined by their members, and the ridges of cells
come with all cells around them.
-/

namespace Orthant

namespace Cells

/-! ## Order -/

section Order

variable {α : Type} [LinearOrder α] {σ τ : List α} {cells cells' : List (List α)}

theorem le_iff : ∀ {σ τ : List α}, le σ τ = true ↔ σ ≤ τ
  | [], τ => by simp [le, ← not_lt]
  | _ :: _, [] => by simp [le, ← not_lt]
  | a :: σ, b :: τ => by
    rw [le, ← not_lt, List.cons_lt_cons_iff]
    split
    case isTrue h => simp [h, le_iff]
    case isFalse h => simp [Ne.symm h, lt_iff_le_and_ne, h]

@[simp] theorem mem_insert : τ ∈ insert σ cells ↔ τ = σ ∨ τ ∈ cells := by
  induction cells with
  | nil => simp [insert]
  | cons υ cells ih =>
    rw [insert]
    split
    case isTrue h => subst h; simp
    case isFalse => split <;> simp [ih, or_left_comm]

theorem pairwise_insert (h : cells.Pairwise (· < ·)) : (insert σ cells).Pairwise (· < ·) := by
  induction cells with
  | nil => simp [insert]
  | cons υ cells ih =>
    obtain ⟨hυ, hc⟩ := List.pairwise_cons.mp h
    rw [insert]
    split
    · exact h
    case isFalse hne =>
      split
      case isTrue hle =>
        have hlt : σ < υ := lt_of_le_of_ne (le_iff.mp hle) hne
        refine List.pairwise_cons.mpr ⟨fun τ hτ => ?_, h⟩
        rcases List.mem_cons.mp hτ with rfl | hτ
        · exact hlt
        · exact hlt.trans (hυ τ hτ)
      case isFalse hle =>
        refine List.pairwise_cons.mpr ⟨fun τ hτ => ?_, ih hc⟩
        rcases mem_insert.mp hτ with rfl | hτ
        · exact not_le.mp fun h => hle (le_iff.mpr h)
        · exact hυ τ hτ

theorem foldl_insert (cells acc : List (List α)) (h : acc.Pairwise (· < ·)) :
    (cells.foldl (fun acc σ => insert σ acc) acc).Pairwise (· < ·) ∧
      ∀ σ, σ ∈ cells.foldl (fun acc σ => insert σ acc) acc ↔ σ ∈ cells ∨ σ ∈ acc := by
  induction cells generalizing acc with
  | nil => simp [h]
  | cons υ cells ih =>
    obtain ⟨hp, hm⟩ := ih _ (pairwise_insert (σ := υ) h)
    exact ⟨hp, fun σ => by rw [List.foldl_cons, hm, mem_insert, List.mem_cons]; tauto⟩

@[simp] theorem mem_ofList : σ ∈ ofList cells ↔ σ ∈ cells := by
  simp [ofList, (foldl_insert cells [] List.Pairwise.nil).2]

theorem pairwise_ofList : (ofList cells).Pairwise (· < ·) :=
  (foldl_insert cells [] List.Pairwise.nil).1

/-- Cells in order are determined by their members. -/
theorem ext (h : cells.Pairwise (· < ·)) (h' : cells'.Pairwise (· < ·))
    (hm : ∀ σ, σ ∈ cells ↔ σ ∈ cells') : cells = cells' :=
  List.Pairwise.eq_of_mem_iff h h' fun {σ} => hm σ

end Order

/-! ## Ridges -/

variable {α : Type} {cells : List (List α)}

def sides (cells : List (List α)) : List (List α × α) :=
  cells.flatMap fun σ => σ.map fun a => (σ, a)

theorem mem_sides {s : List α × α} : s ∈ sides cells ↔ s.1 ∈ cells ∧ s.2 ∈ s.1 := by
  obtain ⟨σ, a⟩ := s
  simp [sides]

theorem nodup_sides (h : cells.Nodup) (hσ : ∀ σ ∈ cells, σ.Nodup) : (sides cells).Nodup := by
  refine List.nodup_flatMap.mpr ⟨fun σ h => ?_, h.imp fun hne => ?_⟩
  · exact (hσ σ h).map fun a b hab => (Prod.mk.inj hab).2
  · rintro ⟨υ, a⟩ h1 h2
    obtain ⟨_, -, e1⟩ := List.mem_map.mp h1
    obtain ⟨_, -, e2⟩ := List.mem_map.mp h2
    exact hne ((Prod.mk.inj e1).1.trans (Prod.mk.inj e2).1.symm)

variable [DecidableEq α]

def ridgeOf (s : List α × α) : List α := s.1.filter (· != s.2)

theorem mem_ridgeOf {s : List α × α} {i : α} : i ∈ ridgeOf s ↔ i ∈ s.1 ∧ i ≠ s.2 := by
  simp [ridgeOf]

theorem ridges_eq_foldl :
    ridges cells = (sides cells).foldl (fun acc s => addSide (ridgeOf s) s acc) [] := by
  rw [ridges, sides, List.foldl_flatMap]
  simp only [List.foldl_map, ridgeOf]

section AddSide

variable {ρ ρ' : List α} {s : List α × α} {ss : List (List α × α)}
  {acc : List (List α × List (List α × α))}

theorem map_fst_addSide : (addSide ρ s acc).map Prod.fst =
    if ρ ∈ acc.map Prod.fst then acc.map Prod.fst else acc.map Prod.fst ++ [ρ] := by
  induction acc with
  | nil => simp [addSide]
  | cons r acc ih =>
    rw [addSide]
    split
    case isTrue h => simp [h]
    case isFalse h =>
      rw [List.map_cons, ih]
      by_cases hm : ρ ∈ acc.map Prod.fst
      · simp [hm]
      · simp only [hm, if_false, List.map_cons, List.mem_cons, Ne.symm h, false_or,
          List.cons_append]

theorem mem_addSide (h : (acc.map Prod.fst).Nodup) : (ρ', ss) ∈ addSide ρ s acc ↔
    if ρ' = ρ then (∃ ss', (ρ, ss') ∈ acc ∧ ss = ss' ++ [s]) ∨ (ρ ∉ acc.map Prod.fst ∧ ss = [s])
    else (ρ', ss) ∈ acc := by
  induction acc with
  | nil => by_cases hρ : ρ' = ρ <;> simp [addSide, hρ]
  | cons r acc ih =>
    obtain ⟨ρ₀, ss₀⟩ := r
    obtain ⟨hr, hacc⟩ := List.nodup_cons.mp h
    rw [addSide]
    split
    case isTrue he =>
      dsimp only at he
      subst he
      have hnone : ∀ ss', (ρ₀, ss') ∉ acc := fun ss' hm => hr (List.mem_map.mpr ⟨_, hm, rfl⟩)
      by_cases hρ : ρ' = ρ₀
      · subst hρ; simp [hnone]
      · simp [hρ]
    case isFalse he =>
      dsimp only at he
      rw [List.mem_cons, ih hacc]
      by_cases hρ : ρ' = ρ
      · subst hρ; simp [Ne.symm he]
      · simp [hρ]

end AddSide

theorem foldl_addSide (L : List (List α × α)) :
    ((L.foldl (fun acc s => addSide (ridgeOf s) s acc) []).map Prod.fst).Nodup ∧
      ∀ ρ ss, (ρ, ss) ∈ L.foldl (fun acc s => addSide (ridgeOf s) s acc) [] ↔
        ss = L.filter (fun s => decide (ridgeOf s = ρ)) ∧ ss ≠ [] := by
  induction L using List.reverseRecOn with
  | nil => simp
  | append_singleton L s ih =>
    obtain ⟨hnd, hm⟩ := ih
    have hkeys : ∀ ρ, ρ ∈ (L.foldl (fun acc s => addSide (ridgeOf s) s acc) []).map Prod.fst ↔
        L.filter (fun s => decide (ridgeOf s = ρ)) ≠ [] := by
      intro ρ
      rw [List.mem_map]
      constructor
      · rintro ⟨⟨_, ss⟩, hss, rfl⟩
        obtain ⟨rfl, hne⟩ := (hm _ _).mp hss
        exact hne
      · exact fun hne => ⟨(ρ, _), (hm _ _).mpr ⟨rfl, hne⟩, rfl⟩
    rw [List.foldl_append, List.foldl_cons, List.foldl_nil]
    refine ⟨?_, fun ρ ss => ?_⟩
    · rw [map_fst_addSide]
      split
      · exact hnd
      case isFalse hn =>
        rw [List.nodup_append]
        refine ⟨hnd, List.nodup_singleton _, fun ρ hρ ρ' hρ' h => hn ?_⟩
        rwa [← List.mem_singleton.mp hρ', ← h]
    · rw [mem_addSide hnd, List.filter_append, hkeys]
      split
      case isTrue hρ =>
        subst hρ
        simp only [hm, List.filter_singleton, decide_true, cond_true, ne_eq, not_not]
        constructor
        · rintro (⟨ss', ⟨rfl, -⟩, rfl⟩ | ⟨hnil, rfl⟩)
          · simp
          · simp [hnil]
        · rintro ⟨rfl, -⟩
          by_cases hnil : L.filter (fun s' => decide (ridgeOf s' = ridgeOf s)) = []
          · exact Or.inr ⟨hnil, by simp [hnil]⟩
          · exact Or.inl ⟨_, ⟨rfl, hnil⟩, rfl⟩
      case isFalse hρ =>
        simp only [hm, List.filter_singleton, decide_eq_false (Ne.symm hρ), cond_false,
          List.append_nil]

/-- A ridge comes with all cells around it, each with its vertex off the ridge. -/
theorem mem_ridges {ρ : List α} {ss : List (List α × α)} : (ρ, ss) ∈ ridges cells ↔
    ss = (sides cells).filter (fun s => decide (ridgeOf s = ρ)) ∧ ss ≠ [] := by
  rw [ridges_eq_foldl]
  exact (foldl_addSide _).2 ρ ss

end Cells

end Orthant
