import Mathlib
import Orthant.Proofs.Triangulation.Walls

/-! # Flips of regular triangulations

The forms of a regular triangulation cut out its heights, so a point that is accepted for a wall
bounds them. The list that the flip makes is the flip of the set of cells, and it is regular.
-/

namespace Orthant

open Finset Lifting Filter Topology

namespace Configuration

variable {c : Configuration} {σ τ : Cell} {t : Triangulation} {forms : List Vec} {wall w : Vec}

open Classical in
noncomputable def formSet (forms : List Vec) : Finset (ℕ → ℚ) := forms.toFinset.image entry

theorem mem_formSet {g : ℕ → ℚ} : g ∈ formSet forms ↔ ∃ g' ∈ forms, entry g' = g := by
  simp [formSet]

theorem entry_injective {g g' : Vec} (hl : g.length = g'.length) (h : entry g = entry g') :
    g = g' :=
  List.ext_getElem hl fun i hi hi' => by
    rw [← entry_eq_getElem hi, h, entry_eq_getElem hi']

theorem dot_eq_sum_placeSet {g w : Vec} (hg : g.length = c.size) :
    dot g w = ∑ i ∈ c.placeSet, entry g i * entry w i := by
  rw [dot_eq_sum, hg, placeSet]

/-! ## The cone of a triangulation -/

section Walls

variable (hc : c.IsFull) (ht : c.IsComplex t) {v : ℕ → ℚ}
  (hi : Induces (c.vector ℚ) c.placeSet v t.cells) (hw : c.IsWalls t forms)

include hc hw

theorem IsWalls.length (g : Vec) (hg : g ∈ forms) : g.length = c.size := by
  obtain ⟨σ, -, j, hf, hform⟩ := hw.fold g hg
  exact (form_spec hc hf hform).1

include ht hi

theorem IsWalls.locallyConvex {u : ℕ → ℚ}
    (hu : ∀ g ∈ forms, 0 < ∑ i ∈ c.placeSet, entry g i * u i) :
    LocallyConvex (c.vector ℚ) c.placeSet u t.cells := by
  have hpos : ∀ {σ j}, c.IsFold σ j → (∃ g ∈ forms, c.form σ j = .ok g) →
      0 < height (c.vector ℚ) σ.toFinset j u := by
    rintro σ j hf ⟨g, hg, hform⟩
    obtain ⟨s, hs, heq⟩ := sum_form_eq hc hf hform
    have := hu g hg
    rw [heq u] at this
    exact pos_of_mul_pos_right this hs.le
  have hcover := isCover_of_induces hc ht hi
  constructor
  · rintro _ ⟨σ, hσ, rfl⟩ k hk b hb ⟨τ, hτ, he⟩
    have hkσ := List.mem_toFinset.mp hk
    obtain ⟨r, hr, hrf⟩ := ridgeFold_of_exchange ht hi hσ hτ hkσ (by simpa using hb) he
    rcases hrf with hrf | hrf
    · exact hpos (isFold_of_ridgeFold hcover hr hrf).2 (hw.ridge r hr _ _ hrf)
    · have hτk := hpos (isFold_of_ridgeFold hcover hr hrf).2 (hw.ridge r hr _ _ hrf)
      have hσs := isStrict_of_mem hi hσ
      have hτs := he ▸ isStrict_of_mem hi hτ
      have hneg := hσs.coord_neg hk hb hτs.toIsLower
      have hex := hσs.simplex.height_exchange hk hτs.simplex u
      rw [he] at hτk
      have := mul_neg_of_pos_of_neg hτk hneg
      linarith
  · intro j hj hunused
    have hu' : t.uses j = false := by
      by_contra h
      obtain ⟨σ, hσ, hjσ⟩ := List.any_eq_true.mp (Bool.not_eq_false _ ▸ h)
      exact hunused _ ⟨σ, hσ, rfl⟩ (by simpa using hjσ)
    obtain ⟨σ, hσ, hf, hcone, hform⟩ := hw.unused j (mem_placeSet.mp hj) hu'
    exact ⟨_, ⟨σ, hσ, rfl⟩, hcone, hpos hf hform⟩

/-- The forms cut out the heights that induce the triangulation. -/
theorem IsWalls.cutsOut : CutsOut (c.vector ℚ) c.placeSet t.cells (formSet forms) where
  fold := by
    intro g hg
    obtain ⟨g, hm, rfl⟩ := mem_formSet.mp hg
    obtain ⟨σ, -, j, hf, hform⟩ := hw.fold g hm
    obtain ⟨-, -, s, hs, he⟩ := form_spec hc hf hform
    exact ⟨_, hf.mem_folds, s, hs, he⟩
  ray := by
    intro g hg g' hg' s hs he
    obtain ⟨g, hm, rfl⟩ := mem_formSet.mp hg
    obtain ⟨g', hm', rfl⟩ := mem_formSet.mp hg'
    obtain ⟨σ, -, j, hf, hform⟩ := hw.fold g hm
    obtain ⟨σ', -, j', hf', hform'⟩ := hw.fold g' hm'
    obtain ⟨hl, hn, -⟩ := form_spec hc hf hform
    obtain ⟨hl', hn', -⟩ := form_spec hc hf' hform'
    rw [hn.eq_of_smul hn' (hl'.trans hl.symm) hs he]
  induces_iff := by
    intro u
    constructor
    · intro hu g hg
      obtain ⟨g, hm, rfl⟩ := mem_formSet.mp hg
      obtain ⟨σ, hσ, j, hf, hform⟩ := hw.fold g hm
      obtain ⟨s, hs, heq⟩ := sum_form_eq hc hf hform
      rw [heq u]
      exact mul_pos hs ((isStrict_of_mem hu hσ).height_pos j (mem_placeSet.mpr hf.lt)
        (by simpa using hf.notMem))
    · intro hu
      exact hi.of_locallyConvex hc.span (c.level_pos ℚ)
        (hw.locallyConvex hc ht hi fun g hg => hu _ (mem_formSet.mpr ⟨g, hg, rfl⟩))

end Walls

/-! ## Points of a wall -/

theorem bounds_of_wallPoint {k : ℕ} (hlen : ∀ g ∈ forms, g.length = c.size)
    (hk : forms[k]? = some wall) (hne : ∃ i, entry wall i ≠ 0) {program : WallProgram}
    (h : c.wallPoint wall (forms.eraseIdx k) program = some w) :
    Lifting.Bounds c.placeSet (formSet forms) (entry wall) (entry w) := by
  have hwall : wall ∈ forms := List.mem_of_getElem? hk
  rw [wallPoint, checkWallPoint.eq_def] at h
  split at h
  · cases h
  case h_2 p hp =>
  split at h
  · cases h
  dsimp only at h
  split at h
  · cases h
  case isFalse hany =>
  obtain rfl := Option.some.inj h
  have hpl : p.point.length = c.size := by
    obtain ⟨q, -, rfl⟩ := Option.map_eq_some_iff.mp hp
    simp [Proposal.within]
  have hl := hlen wall hwall
  refine ⟨mem_formSet.mpr ⟨wall, hwall, rfl⟩, ?_, fun g hg hgne => ?_⟩
  · have hsq : 0 < dot wall wall := by
      obtain ⟨i, hi⟩ := hne
      have hi' : i ∈ c.placeSet := mem_placeSet.mpr (by
        by_contra hge
        exact hi (entry_of_length_le (by omega)))
      rw [dot_eq_sum_placeSet hl]
      exact sum_pos' (fun i _ => mul_self_nonneg _) ⟨i, hi', mul_self_pos.mpr hi⟩
    have hsum : ∀ i, entry (snap wall p.point) i =
        entry p.point i - dot wall p.point / dot wall wall * entry wall i := fun i =>
      entry_subScaled (hpl.trans hl.symm) i
    simp only [hsum, mul_sub, sum_sub_distrib, mul_left_comm _ (_ / _), ← mul_sum]
    rw [← dot_eq_sum_placeSet hl, ← dot_eq_sum_placeSet hl, div_mul_cancel₀ _ hsq.ne', sub_self]
  · obtain ⟨g, hm, rfl⟩ := mem_formSet.mp hg
    have hg' : g ∈ forms.eraseIdx k := by
      obtain ⟨m, hm', rfl⟩ := List.mem_iff_getElem.mp hm
      refine List.mem_eraseIdx_iff_getElem?.mpr ⟨m, fun he => hgne ?_, by simp [hm']⟩
      rw [← he, List.getElem?_eq_getElem hm'] at hk
      rw [Option.some.inj hk]
    rw [← dot_eq_sum_placeSet (hlen g hm)]
    by_contra hle
    exact hany (List.any_eq_true.mpr ⟨g, hg', decide_eq_true (not_lt.mp hle)⟩)

/-! ## The flip -/

theorem toFinset_face (hl : wall.length = c.size) (z : ℕ) :
    (Triangulation.face wall z).toFinset = (circuit c.placeSet (entry wall)).erase z := by
  ext i
  simp [Triangulation.face, circuit, hl]
  tauto

theorem mem_upperFaces (hl : wall.length = c.size) {f : List ℕ} :
    f ∈ Triangulation.upperFaces wall ↔
      ∃ z ∈ c.placeSet, 0 < entry wall z ∧ f = Triangulation.face wall z := by
  simp [Triangulation.upperFaces, Triangulation.positivePlaces, hl, and_assoc, eq_comm]

theorem mem_lowerFaces (hl : wall.length = c.size) {f : List ℕ} :
    f ∈ Triangulation.lowerFaces wall ↔
      ∃ z ∈ c.placeSet, entry wall z < 0 ∧ f = Triangulation.face wall z := by
  simp [Triangulation.lowerFaces, Triangulation.negativePlaces, hl, and_assoc, eq_comm]

theorem includes_iff {f : List ℕ} : Cells.includes σ f = true ↔ f.toFinset ⊆ σ.toFinset := by
  simp [Cells.includes, Finset.subset_iff]

theorem toFinset_join (f l : List ℕ) : (Cells.join f l).toFinset = f.toFinset ∪ l.toFinset := by
  ext i
  simp only [Cells.join, List.mem_toFinset, List.mem_mergeSort, List.mem_append, List.mem_filter,
    mem_union]
  by_cases h : i ∈ f <;> simp [h]

theorem pairwise_join {f l : List ℕ} (hf : f.Nodup) (hl : l.Nodup) :
    (Cells.join f l).Pairwise (· < ·) := by
  have hnd : (Cells.join f l).Nodup := by
    rw [Cells.join, (List.mergeSort_perm _ _).nodup_iff, List.nodup_append]
    refine ⟨hf, hl.filter _, fun a ha b hb hab => ?_⟩
    subst hab
    simp [ha] at hb
  have hle : (Cells.join f l).Pairwise (· ≤ ·) :=
    (List.pairwise_mergeSort (by simpa using fun a b c => le_trans)
      (by simpa using Nat.le_total) _).imp (by simp)
  exact hle.imp₂ (fun _ _ h h' => lt_of_le_of_ne h h') hnd

theorem mem_flip (hl : wall.length = c.size) : σ ∈ t.flip wall ↔
    (σ ∈ t ∧ ∀ z ∈ c.placeSet, 0 < entry wall z →
      ¬ (circuit c.placeSet (entry wall)).erase z ⊆ σ.toFinset) ∨
    ∃ τ ∈ t, ∃ z ∈ c.placeSet, 0 < entry wall z ∧
      (circuit c.placeSet (entry wall)).erase z ⊆ τ.toFinset ∧ ∃ z' ∈ c.placeSet, entry wall z' < 0 ∧
        σ = Cells.join (Triangulation.face wall z')
          (τ.filter fun i => !(Triangulation.face wall z).contains i) := by
  rw [Triangulation.flip, Cells.exchange, Cells.mem_ofList, List.mem_append]
  refine or_congr ?_ ?_
  · simp only [List.mem_filter, Bool.not_eq_true', List.any_eq_false, includes_iff]
    refine and_congr_right fun _ => ⟨fun h z hz hpos => ?_, fun h f hf => ?_⟩
    · rw [← toFinset_face hl]
      exact h _ ((mem_upperFaces hl).mpr ⟨z, hz, hpos, rfl⟩)
    · obtain ⟨z, hz, hpos, rfl⟩ := (mem_upperFaces hl).mp hf
      rw [toFinset_face hl]
      exact h z hz hpos
  · simp only [List.mem_flatMap, List.mem_map, Cells.links, List.mem_filterMap]
    constructor
    · rintro ⟨f, hf, link, ⟨τ, hτ, f', hf', hlink⟩, rfl⟩
      obtain ⟨z', hz', hneg, rfl⟩ := (mem_lowerFaces hl).mp hf
      obtain ⟨z, hz, hpos, rfl⟩ := (mem_upperFaces hl).mp hf'
      split at hlink
      case isTrue hinc =>
        cases hlink
        exact ⟨τ, hτ, z, hz, hpos, toFinset_face hl z ▸ includes_iff.mp hinc, z', hz', hneg, rfl⟩
      case isFalse => cases hlink
    · rintro ⟨τ, hτ, z, hz, hpos, hsub, z', hz', hneg, rfl⟩
      refine ⟨_, (mem_lowerFaces hl).mpr ⟨z', hz', hneg, rfl⟩, _, ⟨τ, hτ, _,
        (mem_upperFaces hl).mpr ⟨z, hz, hpos, rfl⟩, if_pos ?_⟩, rfl⟩
      exact includes_iff.mpr (toFinset_face hl z ▸ hsub)

theorem cells_flip (hl : wall.length = c.size) :
    (t.flip wall).cells = flipped c.placeSet t.cells (entry wall) := by
  have hlink : ∀ (τ : Cell) (z z' : ℕ), (Cells.join (Triangulation.face wall z')
      (τ.filter fun i => !(Triangulation.face wall z).contains i)).toFinset =
      (circuit c.placeSet (entry wall)).erase z' ∪
        (τ.toFinset \ (circuit c.placeSet (entry wall)).erase z) := by
    intro τ z z'
    rw [toFinset_join, toFinset_face hl, ← toFinset_face hl z]
    congr 1
    ext i
    simp
  ext s
  constructor
  · rintro ⟨σ, hσ, rfl⟩
    rcases (mem_flip hl).mp hσ with ⟨hσ, hn⟩ | ⟨τ, hτ, z, hz, hpos, hsub, z', hz', hneg, rfl⟩
    · exact Or.inl ⟨⟨σ, hσ, rfl⟩, hn⟩
    · exact Or.inr ⟨_, ⟨τ, hτ, rfl⟩, z, hz, hpos, hsub, z', hz', hneg, hlink τ z z'⟩
  · rintro (⟨⟨σ, hσ, rfl⟩, hn⟩ | ⟨_, ⟨τ, hτ, rfl⟩, z, hz, hpos, hsub, z', hz', hneg, rfl⟩)
    · exact ⟨σ, (mem_flip hl).mpr (Or.inl ⟨hσ, hn⟩), rfl⟩
    · exact ⟨_, (mem_flip hl).mpr (Or.inr ⟨τ, hτ, z, hz, hpos, hsub, z', hz', hneg, rfl⟩),
        hlink τ z z'⟩

theorem isComplex_flip (ht : c.IsComplex t) (hl : wall.length = c.size) {v : ℕ → ℚ}
    (hv : Induces (c.vector ℚ) c.placeSet v (flipped c.placeSet t.cells (entry wall))) :
    c.IsComplex (t.flip wall) := by
  refine ⟨Cells.pairwise_ofList, fun σ hσ => ?_⟩
  have hstr := hv.strict σ.toFinset (cells_flip hl ▸ ⟨σ, hσ, rfl⟩)
  have hp : σ.Pairwise (· < ·) := by
    rcases (mem_flip hl).mp hσ with ⟨hσ, -⟩ | ⟨τ, hτ, z, -, -, -, z', -, -, rfl⟩
    · exact (mem_simplices.mp (ht.mem σ hσ)).1
    · exact pairwise_join (List.nodup_range.filter _)
        ((mem_simplices.mp (ht.mem τ hτ)).1.nodup.filter _)
  refine mem_simplices.mpr ⟨hp, ?_, fun i hi =>
    mem_placeSet.mp (hstr.subset (List.mem_toFinset.mpr hi))⟩
  rw [← List.toFinset_card_of_nodup hp.nodup, hstr.simplex.card]
  simp

theorem isRegular_flip (hc : c.IsFull) (ht : c.IsRegular t) (hw : c.IsWalls t forms)
    (hwall : wall ∈ forms) {p : ℕ → ℚ}
    (hb : Lifting.Bounds c.placeSet (formSet forms) (entry wall) p) : c.IsRegular (t.flip wall) := by
  obtain ⟨htc, v, hv⟩ := hc.isRegular_iff.mp ht
  have hl := hw.length hc wall hwall
  obtain ⟨ε, hε⟩ := ((hw.cutsOut hc htc hv).eventually_induces_flipped hv hc.span (c.level_pos ℚ)
    hb).exists
  exact hc.isRegular_iff.mpr ⟨isComplex_flip htc hl hε, _, cells_flip hl ▸ hε⟩

theorem IsWalls.exists_ne_zero (hc : c.IsFull) (hw : c.IsWalls t forms) (hwall : wall ∈ forms) :
    ∃ i, entry wall i ≠ 0 := by
  obtain ⟨σ, -, j, hf, hform⟩ := hw.fold wall hwall
  obtain ⟨-, -, s, hs, he⟩ := form_spec hc hf hform
  refine ⟨j, ?_⟩
  rw [he, Pi.smul_apply, hf.simplex.form_self (by simpa using hf.notMem), smul_eq_mul, mul_one]
  exact hs.ne'

end Configuration

end Orthant
