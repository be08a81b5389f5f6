import Mathlib
import Orthant.EquationSystem.Fresh

/-! # Fresh names are new

A taken name rules out one count of underscores at most, so one of the counts up to the number of
taken names is free: the least count that is looked for exists. It is the number of turns after which
the loop stops that puts an underscore behind a name as long as the name is taken.
-/

namespace Orthant

/-! ## The least count -/

theorem isLeast_leastCount {bound : ℕ} {accepts : ℕ → Bool} (h : ∃ k ≤ bound, accepts k) :
    IsLeast {k | accepts k} (leastCount bound accepts) := by
  rw [leastCount]
  cases hf : (List.range bound).find? accepts with
  | some k =>
    obtain ⟨hk, -, hbelow⟩ := List.find?_range_eq_some.mp hf
    exact ⟨hk, fun j hj => not_lt.mp fun hlt => by simpa [show accepts j from hj] using hbelow j hlt⟩
  | none =>
    have hbound : ∀ j, accepts j → bound ≤ j := fun j hj => not_lt.mp fun hlt => by
      simpa [hj] using List.find?_range_eq_none.mp hf j hlt
    obtain ⟨k, hk, hak⟩ := h
    obtain rfl := le_antisymm hk (hbound k hak)
    exact ⟨hak, hbound⟩

/-- If every count is ruled out by a taken name, and different counts by different ones, there are
more taken names than counts. -/
theorem exists_count_free (taken : List String) {blocks : ℕ → String → Prop}
    (hinj : ∀ k k' x, blocks k x → blocks k' x → k = k') :
    ∃ k ≤ taken.length, ∀ x ∈ taken, ¬ blocks k x := by
  by_contra hall
  push Not at hall
  choose! f hf hb using hall
  have hcard : (Finset.range (taken.length + 1)).card ≤ taken.toFinset.card :=
    Finset.card_le_card_of_injOn f
      (fun k hk => List.mem_toFinset.mpr (hf k (Finset.mem_range_succ_iff.mp hk)))
      fun k hk k' hk' he => hinj k k' (f k) (hb k (Finset.mem_range_succ_iff.mp hk))
        (he ▸ hb k' (Finset.mem_range_succ_iff.mp hk'))
  have hle := hcard.trans (List.toFinset_card_le taken)
  rw [Finset.card_range] at hle
  omega

/-- Where each count is ruled out by taken names, different counts by different ones, the least count
that is not ruled out is found, and it is at most the number of taken names. -/
theorem isLeast_of_blocks (taken : List String) {blocks : ℕ → String → Prop}
    (hinj : ∀ k k' x, blocks k x → blocks k' x → k = k') (accepts : ℕ → Bool)
    (haccepts : ∀ k, accepts k ↔ ∀ x ∈ taken, ¬ blocks k x) :
    leastCount taken.length accepts ≤ taken.length ∧
      IsLeast {k | accepts k} (leastCount taken.length accepts) := by
  obtain ⟨k, hk, hfree⟩ := exists_count_free taken hinj
  have hak : accepts k := (haccepts k).mpr hfree
  have hleast := isLeast_leastCount ⟨k, hk, hak⟩
  exact ⟨(hleast.2 hak).trans hk, hleast⟩

/-! ## The loop -/

theorem toList_underscores (k : ℕ) : (underscores k).toList = List.replicate k '_' := by
  simp [underscores]

@[simp] theorem append_underscores_zero (stem : String) : stem ++ underscores 0 = stem := by
  simp [underscores]

theorem append_underscores_succ (stem : String) (k : ℕ) :
    stem ++ underscores (k + 1) = stem ++ "_" ++ underscores k := by
  apply String.toList_inj.mp
  simp [toList_underscores, List.replicate_succ]

/-- The loop that puts an underscore behind a stem as long as the stem clashes stops after so many
turns, with a final stem. A loop that goes on for ever stops after no count of turns. -/
inductive Settles (clashes : String → Prop) : ℕ → String → String → Prop
  | stop {stem : String} (h : ¬ clashes stem) : Settles clashes 0 stem stem
  | turn {k : ℕ} {stem final : String} (h : clashes stem)
      (hrest : Settles clashes k (stem ++ "_") final) : Settles clashes (k + 1) stem final

section Loop

variable {clashes : String → Prop} {stem final : String} {k : ℕ}

def freeCounts (clashes : String → Prop) (stem : String) : Set ℕ :=
  {k | ¬ clashes (stem ++ underscores k)}

theorem zero_mem_freeCounts : 0 ∈ freeCounts clashes stem ↔ ¬ clashes stem := by
  simp [freeCounts]

theorem succ_mem_freeCounts :
    k + 1 ∈ freeCounts clashes stem ↔ k ∈ freeCounts clashes (stem ++ "_") := by
  simp [freeCounts, append_underscores_succ]

theorem isLeast_freeCounts_zero : IsLeast (freeCounts clashes stem) 0 ↔ ¬ clashes stem := by
  rw [← zero_mem_freeCounts]
  exact ⟨fun h => h.1, fun h => ⟨h, fun _ _ => Nat.zero_le _⟩⟩

theorem isLeast_freeCounts_succ : IsLeast (freeCounts clashes stem) (k + 1) ↔
    clashes stem ∧ IsLeast (freeCounts clashes (stem ++ "_")) k := by
  constructor
  · rintro ⟨hmem, hbelow⟩
    refine ⟨not_not.mp fun hfree => ?_, succ_mem_freeCounts.mp hmem, fun j hj => ?_⟩
    · exact absurd (hbelow (zero_mem_freeCounts.mpr hfree)) (by omega)
    · exact Nat.succ_le_succ_iff.mp (hbelow (succ_mem_freeCounts.mpr hj))
  · rintro ⟨hclash, hmem, hbelow⟩
    refine ⟨succ_mem_freeCounts.mpr hmem, fun j hj => ?_⟩
    cases j with
    | zero => exact absurd hclash (zero_mem_freeCounts.mp hj)
    | succ j => exact Nat.succ_le_succ (hbelow (succ_mem_freeCounts.mp hj))

/-- The loop stops after the least count of underscores behind which the stem does not clash, and
after no other; the final stem has these underscores. -/
theorem settles_iff : Settles clashes k stem final ↔
    IsLeast (freeCounts clashes stem) k ∧ final = stem ++ underscores k := by
  induction k generalizing stem with
  | zero =>
    rw [isLeast_freeCounts_zero, append_underscores_zero]
    constructor
    · intro h
      cases h with
      | stop h => exact ⟨h, rfl⟩
    · rintro ⟨h, rfl⟩
      exact .stop h
  | succ k ih =>
    rw [isLeast_freeCounts_succ, append_underscores_succ, and_assoc, ← ih]
    constructor
    · intro h
      cases h with
      | turn h hrest => exact ⟨h, hrest⟩
    · rintro ⟨h, hrest⟩
      exact .turn h hrest

end Loop

/-! ## Names -/

theorem append_underscores_inj {name : String} {k k' : ℕ}
    (h : name ++ underscores k = name ++ underscores k') : k = k' := by
  have := congrArg (fun s => s.toList.length) h
  simpa [toList_underscores] using this

theorem isLeast_freshName (name : String) (taken : List String) : ∃ k ≤ taken.length,
    IsLeast (freeCounts (· ∈ taken) name) k ∧ freshName name taken = name ++ underscores k := by
  have hinj : ∀ k k' x, name ++ underscores k = x → name ++ underscores k' = x → k = k' := by
    rintro k k' x rfl h
    exact append_underscores_inj h.symm
  have haccepts : ∀ k, (!taken.contains (name ++ underscores k)) = true ↔
      ∀ x ∈ taken, ¬ name ++ underscores k = x := by
    intro k
    simp only [Bool.not_eq_true', List.contains_eq_mem, decide_eq_false_iff_not]
    exact ⟨fun h x hx he => h (he ▸ hx), fun h hx => h _ hx rfl⟩
  obtain ⟨hle, hleast⟩ := isLeast_of_blocks taken hinj _ haccepts
  refine ⟨_, hle, ?_, rfl⟩
  convert hleast using 1
  ext k
  simp [freeCounts]

theorem freshName_notMem (name : String) (taken : List String) : freshName name taken ∉ taken := by
  obtain ⟨k, -, hleast, hname⟩ := isLeast_freshName name taken
  rw [hname]
  exact hleast.1

theorem notMem_toDigits (i : ℕ) : '_' ∉ Nat.toDigits 10 i := fun h =>
  absurd (Nat.isDigit_of_mem_toDigits (by omega) (by omega) h) (by decide)

theorem replicate_append_inj {α : Type} {a : α} {k k' : ℕ} {u v : List α} (hu : a ∉ u) (hv : a ∉ v)
    (h : List.replicate k a ++ u = List.replicate k' a ++ v) : k = k' ∧ u = v := by
  have hk : k = k' := by
    classical
    have := congrArg (List.count a) h
    simpa [List.count_eq_zero.mpr hu, List.count_eq_zero.mpr hv] using this
  exact ⟨hk, by simpa [hk] using h⟩

theorem numbered_inj {stem : String} {k k' i i' : ℕ}
    (h : stem ++ underscores k ++ toString i = stem ++ underscores k' ++ toString i') :
    k = k' ∧ i = i' := by
  have hlist : List.replicate k '_' ++ Nat.toDigits 10 i =
      List.replicate k' '_' ++ Nat.toDigits 10 i' := by
    have := congrArg String.toList h
    simpa [toList_underscores, Nat.toString_eq_repr, Nat.toList_repr] using this
  obtain ⟨hk, hd⟩ := replicate_append_inj (notMem_toDigits i) (notMem_toDigits i') hlist
  refine ⟨hk, Nat.repr_injective (String.toList_inj.mp ?_)⟩
  rw [Nat.toList_repr, Nat.toList_repr, hd]

theorem mem_numbered {stem x : String} {count : ℕ} :
    x ∈ numbered stem count ↔ ∃ i < count, stem ++ toString i = x := by
  simp [numbered]

theorem isLeast_freshNames (stem : String) (count : ℕ) (taken : List String) :
    ∃ k ≤ taken.length,
      IsLeast (freeCounts (fun stem => ∃ i < count, stem ++ toString i ∈ taken) stem) k ∧
        freshNames stem count taken = numbered (stem ++ underscores k) count := by
  have hinj : ∀ k k' x, x ∈ numbered (stem ++ underscores k) count →
      x ∈ numbered (stem ++ underscores k') count → k = k' := by
    intro k k' x hx hx'
    obtain ⟨i, -, rfl⟩ := mem_numbered.mp hx
    obtain ⟨i', -, h⟩ := mem_numbered.mp hx'
    exact (numbered_inj h).1.symm
  have haccepts : ∀ k, (numbered (stem ++ underscores k) count).all (fun s => !taken.contains s) ↔
      ∀ x ∈ taken, ¬ x ∈ numbered (stem ++ underscores k) count := by
    intro k
    simp only [List.all_eq_true, Bool.not_eq_true', List.contains_eq_mem, decide_eq_false_iff_not]
    exact ⟨fun h x hx hs => h x hs hx, fun h x hs hx => h x hx hs⟩
  obtain ⟨hle, hleast⟩ := isLeast_of_blocks taken hinj _ haccepts
  refine ⟨_, hle, ?_, rfl⟩
  convert hleast using 1
  ext k
  simp [freeCounts, numbered]

@[simp] theorem length_freshNames (stem : String) (count : ℕ) (taken : List String) :
    (freshNames stem count taken).length = count := by
  simp [freshNames, numbered]

theorem notMem_of_mem_freshNames {stem x : String} {count : ℕ} {taken : List String}
    (h : x ∈ freshNames stem count taken) : x ∉ taken := by
  obtain ⟨k, -, hleast, hnames⟩ := isLeast_freshNames stem count taken
  rw [hnames] at h
  obtain ⟨i, hi, rfl⟩ := mem_numbered.mp h
  exact fun hx => hleast.1 ⟨i, hi, hx⟩

theorem nodup_freshNames (stem : String) (count : ℕ) (taken : List String) :
    (freshNames stem count taken).Nodup := by
  rw [freshNames, numbered]
  exact List.Nodup.map_on (fun i _ i' _ he => (numbered_inj he).2) List.nodup_range

/-! ## The loops behind the names -/

/-- The loop for a name that is new stops, and there are no more turns than taken names. -/
theorem settles_freshName (name : String) (taken : List String) : ∃ k ≤ taken.length,
    Settles (· ∈ taken) k name (freshName name taken) ∧
      IsLeast {k | name ++ underscores k ∉ taken} k ∧
      freshName name taken = name ++ underscores k := by
  obtain ⟨k, hk, hleast, hname⟩ := isLeast_freshName name taken
  exact ⟨k, hk, settles_iff.mpr ⟨hleast, hname⟩, hleast, hname⟩

theorem freeCounts_numbered (stem : String) (count : ℕ) (taken : List String) :
    freeCounts (fun stem => ∃ i < count, stem ++ toString i ∈ taken) stem =
      {k | ∀ i < count, stem ++ underscores k ++ toString i ∉ taken} := by
  ext k
  simp [freeCounts]

/-- The loop for numbered names that are new stops, and there are no more turns than taken names. -/
theorem settles_freshNames (stem : String) (count : ℕ) (taken : List String) : ∃ k ≤ taken.length,
    Settles (fun stem => ∃ i < count, stem ++ toString i ∈ taken) k stem (stem ++ underscores k) ∧
      IsLeast {k | ∀ i < count, stem ++ underscores k ++ toString i ∉ taken} k ∧
      freshNames stem count taken =
        (List.range count).map fun i => stem ++ underscores k ++ toString i := by
  obtain ⟨k, hk, hleast, hnames⟩ := isLeast_freshNames stem count taken
  exact ⟨k, hk, settles_iff.mpr ⟨hleast, rfl⟩, freeCounts_numbered stem count taken ▸ hleast, hnames⟩

end Orthant
