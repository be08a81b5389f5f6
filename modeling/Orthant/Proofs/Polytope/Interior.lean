import Mathlib
import Orthant.Polytope.Interior
import Orthant.Proofs.Lattice.Grid
import Orthant.Proofs.Polytope.Facets

/-! # The sweep of interior points

The sweep builds points coordinate by coordinate and adds up the products of all inequalities on the
way, so it lists the lattice points strictly inside the box at which all inequalities hold strictly.
A lattice point that is given as a value is tested against the facets as a point of its own.
-/

namespace Orthant

namespace Polytope

theorem mem_between {lo hi x : ℤ} : x ∈ between lo hi ↔ lo < x ∧ x < hi := by
  simp only [between, List.mem_map, List.mem_range]
  constructor
  · rintro ⟨k, hk, rfl⟩
    omega
  · rintro ⟨hlo, hhi⟩
    exact ⟨(x - lo - 1).toNat, by omega, by omega⟩

theorem pairwise_between (lo hi : ℤ) : (between lo hi).Pairwise (· < ·) := by
  rw [between, List.pairwise_map]
  exact List.pairwise_lt_range.imp fun h => by omega

theorem pairwise_sweep (box : List (ℤ × ℤ)) (fs : List Partial) :
    (sweep box fs).Pairwise (· < ·) := by
  induction box generalizing fs with
  | nil =>
    rw [sweep]
    split
    · exact List.pairwise_singleton _ _
    · exact List.Pairwise.nil
  | cons side box ih =>
    obtain ⟨lo, hi⟩ := side
    rw [sweep, List.pairwise_flatMap]
    refine ⟨fun x _ => ?_, (pairwise_between lo hi).imp fun hxy => ?_⟩
    · rw [List.pairwise_map]
      exact (ih _).imp fun h => List.Lex.cons h
    · intro u hu v hv
      obtain ⟨u, -, rfl⟩ := List.mem_map.mp hu
      obtain ⟨v, -, rfl⟩ := List.mem_map.mp hv
      exact List.Lex.rel hxy

theorem mem_sweep {box : List (ℤ × ℤ)} {fs : List Partial} {x : List ℤ} : x ∈ sweep box fs ↔
    List.Forall₂ (fun y side => side.1 < y ∧ y < side.2) x box ∧
      ∀ f ∈ fs, wrap (f.sum + dotInt f.normal x) < f.offset := by
  induction box generalizing fs x with
  | nil =>
    have hnil : ∀ u : List ℤ, dotInt u [] = 0 := fun u => by cases u <;> rfl
    rw [sweep]
    constructor
    · intro h
      split at h
      case isTrue hall =>
        obtain rfl := List.mem_singleton.mp h
        refine ⟨.nil, fun f hf => ?_⟩
        simpa [hnil] using List.all_eq_true.mp hall f hf
      case isFalse => simp at h
    · rintro ⟨hbox, hall⟩
      obtain rfl := List.forall₂_nil_right_iff.mp hbox
      rw [if_pos]
      · exact List.mem_singleton_self _
      · exact List.all_eq_true.mpr fun f hf => by simpa [hnil] using hall f hf
  | cons side box ih =>
    have hcons : ∀ (f : Partial) (y : ℤ) (z : List ℤ),
        f.sum + dotInt f.normal (y :: z) =
          (f.advance y).sum + dotInt (f.advance y).normal z := by
      intro f y z
      cases hn : f.normal with
      | nil => cases z <;> simp [Partial.advance, hn, dotInt]
      | cons a u => simp [Partial.advance, hn, dotInt, add_assoc]
    obtain ⟨lo, hi⟩ := side
    simp only [sweep, List.mem_flatMap, List.mem_map, mem_between, ih]
    constructor
    · rintro ⟨y, hy, z, ⟨hz, hall⟩, rfl⟩
      refine ⟨.cons hy hz, fun f hf => ?_⟩
      rw [hcons]
      exact hall _ ⟨f, hf, rfl⟩
    · rintro ⟨hbox, hall⟩
      cases hbox with
      | cons hy hz =>
        refine ⟨_, hy, _, ⟨hz, ?_⟩, rfl⟩
        rintro _ ⟨f, hf, rfl⟩
        exact hcons f _ _ ▸ hall f hf

/-- The interior points are the lattice points strictly inside the box at which all facets hold
strictly. -/
theorem mem_interiorPoints {p : Polytope} {fs : List Facet} {x : List ℤ} :
    x ∈ p.interiorPoints fs ↔
      List.Forall₂ (fun y side => side.1 < y ∧ y < side.2) x p.sides ∧ strictlyInside fs x := by
  rw [interiorPoints, mem_sweep, List.forall_mem_map, strictlyInside, List.all_eq_true]
  refine and_congr_right fun _ => forall₂_congr fun f _ => ?_
  rw [zero_add, decide_eq_true_iff, dotWord]

theorem lt_of_mem_interiorPoints {p : Polytope} {fs : List Facet} {x : List ℤ}
    (h : x ∈ p.interiorPoints fs) {r : ℕ} (hr : r < p.ambient) :
    minimum (p.coordinates r) < x.getD r 0 ∧ x.getD r 0 < maximum (p.coordinates r) := by
  have hbox := (mem_interiorPoints.mp h).1
  have hlen : x.length = p.ambient := by simpa [sides] using hbox.length_eq
  have := (List.forall₂_iff_get.mp hbox).2 r (hlen.symm ▸ hr) (by simpa [sides] using hr)
  rw [List.getD_eq_getElem _ _ (hlen.symm ▸ hr)]
  simpa [sides] using this

/-! ## Points given as values -/

/-- What the test for interior lattice points has looked at when it accepts a point. -/
theorem isInterior_eq_true {p : Polytope} {fs : List Facet} {b : List ℤ}
    (h : p.isInterior (.ok fs) (.list (b.map .ofInt)) = .ok true) : b.length = p.ambient ∧
      ∃ g, (Value.list (b.map .ofInt)).castGrid = .ok g ∧
        ∀ f ∈ fs, dotWord f.normal g.entries < f.offset := by
  obtain ⟨integral, -, h⟩ := bind_eq_ok.mp h
  cases integral with
  | false => simp at h
  | true =>
    obtain ⟨⟨shape, entries⟩, hg, h⟩ := bind_eq_ok.mp h
    obtain ⟨fs', hfs, h⟩ := bind_eq_ok.mp h
    obtain rfl := Except.ok.inj hfs
    obtain ⟨pairs, hpairs, hall⟩ := bind_eq_ok.mp h
    obtain rfl : shape = [b.length] := castGrid_shape hg
    simp only [queryPairs, List.reverse_singleton] at hpairs
    split at hpairs
    case isTrue hlen =>
      refine ⟨hlen, _, hg, fun f hf => ?_⟩
      obtain rfl := Except.ok.inj hpairs
      simpa using List.all_eq_true.mp (Except.ok.inj hall) _ (List.mem_map_of_mem hf)
    case isFalse => cases hpairs

section Membership

variable {p : Polytope} {fs : List Facet} {b : List ℤ} (hlen : b.length = p.ambient)
  (hb : ∀ x ∈ b, isWord x = true)

include hlen hb

omit hb in
theorem queryPairs_point :
    p.queryPairs fs ⟨[b.length], b⟩ = .ok (fs.map fun f => (dotWord f.normal b, f.offset)) := by
  rw [queryPairs]
  exact if_pos hlen

theorem containsStrictly_point :
    p.containsStrictly (.ok fs) (.list (b.map .ofInt)) = .ok (strictlyInside fs b) := by
  simp only [containsStrictly, toGrid_ofInts hb, isStrictlyInside, queryPairs_point hlen, bind,
    Except.bind, strictlyInside, List.all_map]
  rfl

theorem meetsBoundary_point :
    p.meetsBoundary (.ok fs) (.list (b.map .ofInt)) = .ok (onBoundary fs b) := by
  simp only [meetsBoundary, toGrid_ofInts hb, queryPairs_point hlen, bind, Except.bind,
    onBoundary, List.all_map, List.any_map]
  rfl

theorem isInterior_point (hp : 0 < p.ambient) :
    p.isInterior (.ok fs) (.list (b.map .ofInt)) = .ok (strictlyInside fs b) := by
  have hne : b ≠ [] := List.ne_nil_of_length_pos (hlen ▸ hp)
  simp only [isInterior, allIntegral_ofInts hb hne, castGrid_ofInts hb hne, isStrictlyInside,
    queryPairs_point hlen, bind, Except.bind, strictlyInside, List.all_map, if_true]
  rfl

end Membership

end Polytope

end Orthant
