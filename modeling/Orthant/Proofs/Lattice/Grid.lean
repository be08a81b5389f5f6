import Mathlib
import Orthant.Lattice.Cast
import Orthant.Proofs.Lattice.Word

/-! # Grids of integers

Integers given as values are a grid when all of them are words; lists of them have to be of one
length.
-/

namespace Orthant

/-! ## One list -/

theorem shape?_ofInts (b : List ℤ) : (Value.list (b.map .ofInt)).shape? = some [b.length] := by
  have hitems : Value.itemShape? (b.map .ofInt) = some [] := by
    induction b with
    | nil => rfl
    | cons x b ih =>
      cases b with
      | nil => rfl
      | cons y b =>
        rw [List.map_cons, List.map_cons, Value.itemShape?]
        · rw [List.map_cons] at ih
          rw [ih]
          rfl
        · simp
  rw [Value.shape?, hitems]
  simp

theorem leaves_ofInts (b : List ℤ) :
    (Value.list (b.map .ofInt)).leaves = b.map .ofInt := by
  rw [Value.leaves]
  induction b with
  | nil => rfl
  | cons x b ih =>
    rw [List.map_cons, Value.leavesOf, ih]
    rfl

@[simp] theorem toWord_ofInt (x : ℤ) : (Value.ofInt x).toWord = toWord x := by
  simp [Value.toWord, Value.ofInt, Value.toInteger, Quantity.toRat, Except.bind, bind]

theorem mapM_toWord_ofInts (b : List ℤ) : (b.map .ofInt).mapM Value.toWord = b.mapM toWord := by
  rw [List.mapM_map]
  exact congrArg (List.mapM · b) (funext toWord_ofInt)

theorem toGrid_ofInts {b : List ℤ} (hb : ∀ x ∈ b, isWord x = true) :
    (Value.list (b.map .ofInt)).toGrid = .ok ⟨[b.length], b⟩ := by
  rw [Value.toGrid, shape?_ofInts, leaves_ofInts, mapM_toWord_ofInts, mapM_toWord_iff.mpr hb]
  rfl

theorem mapM_toWord_ofInts_eq_ok {b r : List ℤ} (h : (b.map .ofInt).mapM Value.toWord = .ok r) :
    r = b ∧ ∀ x ∈ b, isWord x = true := by
  rw [mapM_toWord_ofInts] at h
  obtain rfl := mapM_eq_self (fun _ _ => toWord_eq_ok) h
  exact ⟨rfl, mapM_toWord_iff.mp h⟩

theorem toGrid_ofInts_eq_ok {b : List ℤ} {g : Grid}
    (h : (Value.list (b.map .ofInt)).toGrid = .ok g) :
    g = ⟨[b.length], b⟩ ∧ ∀ x ∈ b, isWord x = true := by
  rw [Value.toGrid, shape?_ofInts, leaves_ofInts] at h
  obtain ⟨entries, hentries, hg⟩ := bind_eq_ok.mp h
  obtain ⟨rfl, hb⟩ := mapM_toWord_ofInts_eq_ok hentries
  exact ⟨(Except.ok.inj hg).symm, hb⟩

/-! ## Lists of one length -/

theorem shape?_of_itemShape? {xs : List Value} {s : List ℕ} (h : Value.itemShape? xs = some s) :
    ∀ x ∈ xs, x.shape? = some s := by
  induction xs generalizing s with
  | nil => simp
  | cons x xs ih =>
    cases xs with
    | nil =>
      rw [Value.itemShape?] at h
      simpa using h
    | cons y xs =>
      rw [Value.itemShape?] at h
      · simp only [Option.bind_eq_bind, Option.bind_eq_some_iff] at h
        obtain ⟨s', hx, t, ht, h⟩ := h
        split at h
        case isTrue he =>
          obtain rfl := Option.some.inj h
          exact List.forall_mem_cons.mpr ⟨hx, ih (he ▸ ht)⟩
        case isFalse => cases h
      · simp

/-- Points given as lists of their coordinates. -/
def Value.ofPoints (points : List (List ℤ)) : Value :=
  .list (points.map fun p => .list (p.map .ofInt))

theorem leaves_ofPoints (points : List (List ℤ)) :
    (Value.ofPoints points).leaves = points.flatten.map .ofInt := by
  rw [Value.ofPoints, Value.leaves]
  induction points with
  | nil => rfl
  | cons p points ih =>
    rw [List.map_cons, Value.leavesOf, ih, leaves_ofInts, List.flatten_cons, List.map_append]

theorem chunks_flatten {α : Type} {n : ℕ} {rows : List (List α)} (h : ∀ r ∈ rows, r.length = n) :
    chunks n rows.flatten rows.length = rows := by
  induction rows with
  | nil => rfl
  | cons r rows ih =>
    obtain ⟨hr, hrows⟩ := List.forall_mem_cons.mp h
    rw [List.length_cons, List.flatten_cons, chunks, List.take_left' hr, List.drop_left' hr,
      ih hrows]

/-- Points are a grid only if they are of one length and all their coordinates are words; then they
are the points of the grid. -/
theorem toGrid_ofPoints_eq_ok {points : List (List ℤ)} {g : Grid} (hne : points ≠ [])
    (h : (Value.ofPoints points).toGrid = .ok g) : g.points? = some points ∧
      (∃ n, ∀ p ∈ points, p.length = n) ∧ ∀ p ∈ points, ∀ x ∈ p, isWord x = true := by
  rw [Value.toGrid, leaves_ofPoints] at h
  split at h
  case h_1 => cases h
  case h_2 s hs =>
    obtain ⟨entries, hentries, hg⟩ := bind_eq_ok.mp h
    obtain rfl := Except.ok.inj hg
    obtain ⟨rfl, hwords⟩ := mapM_toWord_ofInts_eq_ok hentries
    rw [Value.ofPoints, Value.shape?] at hs
    obtain ⟨t, ht, rfl⟩ := Option.map_eq_some_iff.mp hs
    have hshape : ∀ p ∈ points, t = [p.length] := by
      intro p hp
      have := shape?_of_itemShape? ht _ (List.mem_map_of_mem hp)
      rw [shape?_ofInts] at this
      exact (Option.some.inj this).symm
    obtain ⟨p, hp⟩ := List.exists_mem_of_ne_nil _ hne
    obtain rfl := hshape p hp
    have hlen : ∀ q ∈ points, q.length = p.length := fun q hq => by
      simpa using (hshape q hq).symm
    refine ⟨?_, ⟨_, hlen⟩, fun q hq x hx => hwords x (List.mem_flatten.mpr ⟨q, hq, hx⟩)⟩
    rw [Grid.points?, List.length_map]
    exact congrArg some (chunks_flatten hlen)

theorem itemShape?_of_shape? {xs : List Value} {s : List ℕ} (hne : xs ≠ [])
    (h : ∀ x ∈ xs, x.shape? = some s) : Value.itemShape? xs = some s := by
  induction xs with
  | nil => exact absurd rfl hne
  | cons x xs ih =>
    obtain ⟨hx, hxs⟩ := List.forall_mem_cons.mp h
    cases xs with
    | nil => rw [Value.itemShape?, hx]
    | cons y xs =>
      rw [Value.itemShape?, hx, ih (List.cons_ne_nil _ _) hxs]
      · simp
      · simp

theorem toGrid_ofPoints {points : List (List ℤ)} {n : ℕ} (hlen : ∀ p ∈ points, p.length = n)
    (hwords : ∀ p ∈ points, ∀ x ∈ p, isWord x = true) :
    ∃ shape, (Value.ofPoints points).toGrid = .ok ⟨shape, points.flatten⟩ := by
  have hshape : ∃ shape, (Value.ofPoints points).shape? = some shape := by
    rw [Value.ofPoints, Value.shape?]
    by_cases hne : points = []
    · rw [hne]
      exact ⟨_, rfl⟩
    · rw [itemShape?_of_shape? (s := [n]) (by simpa using hne)]
      · exact ⟨_, rfl⟩
      · intro x hx
        obtain ⟨p, hp, rfl⟩ := List.mem_map.mp hx
        rw [shape?_ofInts, hlen p hp]
  obtain ⟨shape, hshape⟩ := hshape
  have hflat : ∀ x ∈ points.flatten, isWord x = true := by
    intro x hx
    obtain ⟨p, hp, hx⟩ := List.mem_flatten.mp hx
    exact hwords p hp x hx
  refine ⟨shape, ?_⟩
  rw [Value.toGrid, hshape, leaves_ofPoints, mapM_toWord_ofInts, mapM_toWord_iff.mpr hflat]
  rfl

/-- Points of one length come back when their grid is read in rows of this length. -/
theorem reshape_flatten {points : List (List ℤ)} {n : ℕ} (hlen : ∀ p ∈ points, p.length = n)
    (shape : List ℕ) : Grid.reshape ⟨shape, points.flatten⟩ n =
      if n = 0 then fail .value else .ok points := by
  have hlength : points.flatten.length = points.length * n := by
    rw [List.length_flatten, List.map_congr_left hlen, List.map_const', List.sum_replicate,
      smul_eq_mul]
  unfold Grid.reshape
  by_cases hn : n = 0
  · rw [if_pos hn, if_pos hn]
  · rw [if_neg hn, if_neg hn, hlength, Nat.mul_mod_left, if_pos rfl,
      Nat.mul_div_cancel _ (Nat.pos_of_ne_zero hn), chunks_flatten hlen]

/-! ## Arrays of one kind -/

theorem castGrid_shape {b : List ℤ} {g : Grid}
    (h : (Value.list (b.map .ofInt)).castGrid = .ok g) : g.shape = [b.length] := by
  rw [Value.castGrid, shape?_ofInts] at h
  obtain ⟨entries, -, he⟩ := bind_eq_ok.mp h
  exact congrArg Grid.shape (Except.ok.inj he).symm

theorem arrayKind_ofInts {b : List ℤ} (hb : ∀ x ∈ b, isWord x = true) (hne : b ≠ []) :
    Value.arrayKind (b.map .ofInt) = .word := by
  have hkinds : (b.map Value.ofInt).map Value.entryKind = b.map fun _ => EntryKind.word := by
    rw [List.map_map]
    refine List.map_congr_left fun x hx => ?_
    rw [Function.comp_apply, Value.ofInt, Value.entryKind, if_pos (hb x hx)]
  have hfold : ∀ l : List ℤ, (l.map fun _ => EntryKind.word).foldl EntryKind.join .word = .word := by
    intro l
    induction l with
    | nil => rfl
    | cons x l ih => exact ih
  obtain ⟨x, l, rfl⟩ := List.exists_cons_of_ne_nil hne
  rw [Value.arrayKind, hkinds]
  exact hfold l

theorem castGrid_ofInts {b : List ℤ} (hb : ∀ x ∈ b, isWord x = true) (hne : b ≠ []) :
    (Value.list (b.map .ofInt)).castGrid = .ok ⟨[b.length], b⟩ := by
  rw [Value.castGrid, shape?_ofInts, leaves_ofInts]
  dsimp only
  rw [arrayKind_ofInts hb hne]
  have hgrid := toGrid_ofInts hb
  rw [Value.toGrid, shape?_ofInts, leaves_ofInts] at hgrid
  exact hgrid

theorem allIntegral_ofInts {b : List ℤ} (hb : ∀ x ∈ b, isWord x = true) (hne : b ≠ []) :
    (Value.list (b.map .ofInt)).allIntegral = .ok true := by
  have hints : (b.map Value.ofInt).mapM (Value.isIntegral .word) = .ok (b.map fun _ => true) := by
    rw [List.mapM_map]
    exact mapM_eq_ok fun x _ => rfl
  rw [Value.allIntegral, shape?_ofInts, leaves_ofInts]
  dsimp only
  rw [arrayKind_ofInts hb hne, hints]
  simp [bind, Except.bind]

end Orthant
