import Mathlib
import Orthant.Proofs.Polytope.Sublist
import Orthant.Proofs.Triangulation.Ending

/-! # One simplex

Points that span their space and are one more than the dimension have a single triangulation. No
ridge has two sides and no point is unused, so there are no walls: a search hands out that
triangulation and comes to its end, whatever is proposed to it.
-/

namespace Orthant

open Finset Lifting

theorem choices_length {α : Type} (l : List α) : choices l.length l = [l] := by
  induction l with
  | nil => rfl
  | cons x l ih =>
    have hnone : choices (l.length + 1) l = [] := by
      refine List.eq_nil_iff_forall_not_mem.mpr fun s hs => ?_
      obtain ⟨hsub, hlen⟩ := mem_choices.mp hs
      have := hsub.length_le
      omega
    rw [List.length_cons, choices, ih, hnone]
    rfl

namespace Configuration

variable {c : Configuration} {t : Triangulation}

theorem simplices_of_size (h : c.size = c.dim + 1) : c.simplices = [List.range c.size] := by
  have hall := choices_length (List.range c.size)
  rw [List.length_range] at hall
  rw [simplices, ← h, hall]

/-! ## No walls -/

theorem ridgeFold_eq_none {r : Ridge} (hr : r ∈ Triangulation.ridges [List.range c.size]) :
    ridgeFold r = none := by
  obtain ⟨ρ, ss⟩ := r
  match ss, hr with
  | [], _ => rfl
  | [_], _ => rfl
  | _ :: _ :: _ :: _, _ => rfl
  | [(σ, k), (τ, b)], hr =>
    obtain ⟨hss, -⟩ := Cells.mem_ridges.mp hr
    have hnd : (Cells.sides [List.range c.size]).Nodup :=
      Cells.nodup_sides (List.nodup_singleton _) (by simp [List.nodup_range])
    have hside : ∀ s ∈ [(σ, k), (τ, b)], s.1 = List.range c.size ∧ s.2 ∈ s.1 ∧
        Cells.ridgeOf s = ρ := by
      intro s hs
      rw [hss, List.mem_filter, Cells.mem_sides, List.mem_singleton, decide_eq_true_iff] at hs
      exact ⟨hs.1.1, hs.1.2, hs.2⟩
    obtain ⟨rfl, hk, hρ⟩ := hside (σ, k) (by simp)
    obtain ⟨rfl, hb, hρ'⟩ := hside (τ, b) (by simp)
    have hkb : k = b := by
      by_contra hne
      have hmem : k ∈ Cells.ridgeOf (List.range c.size, b) := Cells.mem_ridgeOf.mpr ⟨hk, hne⟩
      rw [hρ'.trans hρ.symm] at hmem
      exact (Cells.mem_ridgeOf.mp hmem).2 rfl
    have hnd := hss ▸ hnd.filter _
    simp [hkb] at hnd

theorem walls_range (c : Configuration) : c.walls [List.range c.size] = .ok [] := by
  obtain ⟨_, hridges, rfl⟩ := foldlM_returns (f := c.addRidge) (P := (· = [])) (b := [])
    (l := Triangulation.ridges [List.range c.size])
    (fun _ r hr hnil => ⟨[], addRidge_eq_ok.mpr (.inl ⟨ridgeFold_eq_none hr, hnil.symm⟩), rfl⟩) rfl
  obtain ⟨_, hunused, rfl⟩ := foldlM_returns (f := c.addUnused [List.range c.size])
    (P := (· = [])) (b := []) (l := List.range c.size)
    (fun _ j hj hnil => ⟨[], addUnused_eq_ok.mpr (.inl ⟨by
      simpa [Triangulation.uses] using hj, hnil.symm⟩), rfl⟩) rfl
  exact bind_eq_ok.mpr ⟨_, hridges, hunused⟩

theorem neighbours_range (c : Configuration) (p : Programs) :
    c.neighbours [List.range c.size] p = ([], none) := by
  rw [neighbours, walls_range]
  rfl

/-! ## One subdivision -/

section Single

variable (h : c.size = c.dim + 1) (hc : c.IsFull)

include h

theorem range_mem_simplices : List.range c.size ∈ c.simplices := by
  rw [simplices_of_size h]
  exact List.mem_singleton_self _

include hc

theorem isSimplex_range : IsSimplex ℚ (c.vector ℚ) (List.range c.size).toFinset := by
  obtain ⟨s, hI, hs⟩ := exists_isSimplex hc.span
  have hmem := sort_mem_simplices hs hI
  rw [simplices_of_size h, List.mem_singleton] at hmem
  rw [← hmem]
  simpa using hs

theorem subdivision_of_size (w : Vec) : c.subdivision w = some [List.range c.size] := by
  have hothers : c.others (List.range c.size) = [] := by simp [others]
  rw [subdivision, simplices_of_size h, lowerCells]
  cases hh : c.heightsAbove w (List.range c.size) with
  | none =>
    exact absurd (isSimplex_range h hc) (heightsAbove_eq_none (range_mem_simplices h) hh)
  | some hs =>
    obtain ⟨inv, -, rfl⟩ := Option.map_eq_some_iff.mp hh
    rw [hothers]
    rfl

theorem eq_of_isRegular (ht : c.IsRegular t) : t = [List.range c.size] := by
  obtain ⟨w, -, hw⟩ := ht
  exact Option.some.inj (hw.symm.trans (subdivision_of_size h hc w))

end Single

end Configuration

namespace Search

open Orthant.Configuration

variable {c : Configuration} {b : Bounds} {clock : Clock}

theorem next_start (hb : b.refuse clock 1 = none) (t : Triangulation) (p : Programs) :
    (Search.start t).next c b clock p = .found t ⟨[t], [], 1, some t⟩ := by
  simp [next, expand, start, hb]

theorem next_range (c : Configuration) (b : Bounds) (clock : Clock) (p : Programs) :
    (⟨[[List.range c.size]], [], 1, some [List.range c.size]⟩ : Search).next c b clock p =
      .finished 1 := by
  simp [next, expand, neighbours_range]

/-- A search that may hand out one triangulation hands out the simplex and comes to its end. -/
theorem run_range (hb : b.refuse clock 1 = none) (p : Programs) {fuel : ℕ} (hfuel : 2 ≤ fuel) :
    (Search.start [List.range c.size]).run c b clock fuel p =
      ([[List.range c.size]], .finished 1) := by
  obtain ⟨fuel, rfl⟩ := Nat.exists_eq_add_of_le' hfuel
  rw [run, next_start hb]
  simp only [run, next_range]

theorem firstSome_range {α : Type} {test : ℕ → Triangulation → Except Error (Option α)}
    (htest : test 1 [List.range c.size] = .ok none) (hb : b.refuse clock 1 = none) (p : Programs)
    {fuel : ℕ} (hfuel : 2 ≤ fuel) :
    (Search.start [List.range c.size]).firstSome c b clock test fuel p =
      .ok (.inr (.finished 1)) := by
  obtain ⟨fuel, rfl⟩ := Nat.exists_eq_add_of_le' hfuel
  rw [firstSome, next_start hb]
  refine bind_eq_ok.mpr ⟨none, htest, ?_⟩
  simp only [firstSome, next_range]

/-- Whatever is proposed, a search of the vertices of a simplex starts at the simplex. -/
theorem ofPoints_of_size (h : c.size = c.dim + 1) (hc : c.IsFull) (hsup : c.Supported)
    {facets : Polytope.FacetProgram}
    (hfs : (Polytope.ofPoints c.dim c.points).facets facets = .ok c.facets) (seed : ℤ)
    (hull : HullProgram) :
    Search.ofPoints c.points (.ok seed) hull facets = .ok (c, .start [List.range c.size]) := by
  have hdim : affineDimension c.points = c.dim :=
    eq_of_beq (Polytope.isFull_of_facets hfs).1
  have hne : c.points ≠ [] := List.ne_nil_of_length_eq_add_one h
  have hhead : (c.points.headD []).length = c.dim := by
    obtain ⟨q, rest, hq⟩ := List.exists_cons_of_ne_nil hne
    rw [hq]
    exact hc.length q (by simp [hq])
  obtain ⟨t, ht⟩ : ∃ t, c.initial seed hull = .ok t := by
    have hstep : ∀ rng fuel, ∃ t, c.initialFrom hull rng (fuel + 1) = .ok t := by
      intro rng fuel
      rw [initialFrom]
      dsimp only
      split
      · exact ⟨_, rfl⟩
      · rw [subdivision_of_size h hc]
        exact ⟨_, rfl⟩
    exact hstep _ 99
  obtain rfl := eq_of_isRegular h hc (isRegular_of_initialFrom hc (.inl hsup.oneSided) ht)
  rw [Search.ofPoints, hhead, if_neg (not_not.mpr hdim)]
  exact bind_eq_ok.mpr ⟨c, bind_eq_ok.mpr ⟨_, hfs, rfl⟩, bind_eq_ok.mpr ⟨seed, rfl,
    bind_eq_ok.mpr ⟨_, ht, rfl⟩⟩⟩

end Search

end Orthant
