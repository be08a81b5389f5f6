import Mathlib
import Orthant.Proofs.Lifting.Crossing
import Orthant.Proofs.Triangulation.Chamber

/-! # Crossing the walls of a triangulation

The heights just behind a bounding wall have the flip as their subdivision. The opposite form is
among the walls of the flip, and the flip on it gives the triangulation back.
-/

namespace Orthant

open Lifting Filter Topology

namespace Configuration

variable {c : Configuration} {t : Triangulation} {forms : List Vec} {wall w : Vec}

theorem entry_scaleVec_neg_one (g : Vec) : entry (scaleVec (-1) g) = -entry g :=
  funext fun i => by rw [entry_scaleVec, neg_one_mul, Pi.neg_apply]

theorem IsNormal.scaleVec_neg_one {g : Vec} (hg : IsNormal g) : IsNormal (scaleVec (-1) g) := by
  obtain ⟨x, hx, hx1⟩ := hg
  exact ⟨-1 * x, by rw [scaleVec, find?_map_mul g (by norm_num), hx]; rfl, by simpa using hx1⟩

section Walls

variable (hc : c.IsFull) (ht : c.IsRegular t) (hw : c.IsWalls t forms)

include hc hw

theorem IsWalls.isNormal (hwall : wall ∈ forms) : IsNormal wall := by
  obtain ⟨σ, -, j, hf, hform⟩ := hw.fold wall hwall
  exact (form_spec hc hf hform).2.1

/-- A point of a wall that is strictly inside all other forms bounds the heights. -/
theorem IsWalls.bounds (hwall : wall ∈ forms) (hzero : dot wall w = 0)
    (hpos : ∀ g ∈ forms, g ≠ wall → 0 < dot g w) :
    Lifting.Bounds c.placeSet (formSet forms) (entry wall) (entry w) := by
  refine ⟨mem_formSet.mpr ⟨wall, hwall, rfl⟩, ?_, fun g hg hne => ?_⟩
  · rw [← dot_eq_sum_placeSet (hw.length hc wall hwall), hzero]
  · obtain ⟨g, hm, rfl⟩ := mem_formSet.mp hg
    rw [← dot_eq_sum_placeSet (hw.length hc g hm)]
    exact hpos g hm fun he => hne (he ▸ rfl)

include ht

theorem exists_subdivision_flip (hwall : wall ∈ forms) (hl : w.length = c.size)
    (hb : Lifting.Bounds c.placeSet (formSet forms) (entry wall) (entry w)) :
    ∃ ε₀ > 0, ∀ ε, 0 < ε → ε < ε₀ → c.subdivision (subScaled w ε wall) = some (t.flip wall) := by
  obtain ⟨htc, v, hv⟩ := hc.isRegular_iff.mp ht
  have hlw := hw.length hc wall hwall
  obtain ⟨ε₀, hε₀, hsub⟩ := mem_nhdsGT_iff_exists_Ioo_subset.mp
    ((hw.cutsOut hc htc hv).eventually_induces_flipped hv hc.span (c.level_pos ℚ) hb)
  refine ⟨ε₀, hε₀, fun ε hpos hlt => (subdivision_eq_some_iff hc).mpr ?_⟩
  have hind := hsub ⟨hpos, hlt⟩
  refine ⟨isComplex_flip htc hlw hind, ?_⟩
  rw [cells_flip hlw]
  refine hind.congr fun i _ => ?_
  rw [entry_subScaled (hl.trans hlw.symm)]
  simp [sub_eq_add_neg]

theorem flip_flip_of_bounds (hwall : wall ∈ forms) {forms' : List Vec}
    (hw' : c.IsWalls (t.flip wall) forms')
    (hb : Lifting.Bounds c.placeSet (formSet forms) (entry wall) (entry w)) :
    scaleVec (-1) wall ∈ forms' ∧ (t.flip wall).flip (scaleVec (-1) wall) = t := by
  obtain ⟨htc, v, hv⟩ := hc.isRegular_iff.mp ht
  have hl := hw.length hc wall hwall
  obtain ⟨htc', v', hv'⟩ := hc.isRegular_iff.mp (isRegular_flip hc ht hw hwall hb)
  have hcut' := hw'.cutsOut hc htc' hv'
  rw [cells_flip hl] at hcut'
  obtain ⟨s, hs, hmem, hback⟩ :=
    (hw.cutsOut hc htc hv).flipped_flipped hv hc.span (c.level_pos ℚ) hb hcut'
  obtain ⟨g, hg, heq⟩ := mem_formSet.mp hmem
  obtain rfl : g = scaleVec (-1) wall :=
    (hw.isNormal hc hwall).scaleVec_neg_one.eq_of_smul (hw'.isNormal hc hg)
      (by simp [scaleVec, hl, hw'.length hc g hg]) hs
      (by rw [heq, entry_scaleVec_neg_one, smul_neg, neg_smul])
  refine ⟨hg, ?_⟩
  have hcells : ((t.flip wall).flip (scaleVec (-1) wall)).cells = t.cells := by
    rw [cells_flip (hw'.length hc _ hg), cells_flip hl, heq, hback]
  refine (isComplex_flip htc' (hw'.length hc _ hg) (v := v) ?_).ext htc hcells
  rwa [cells_flip hl, heq, hback]

end Walls

/-- Just behind a bounding wall of a regular triangulation lies its flip, and the flip on the
opposite wall undoes it. -/
theorem flip_eq_subdivision_and_flip_flip (hc : c.IsFull) (ht : c.IsRegular t) :
    ∃ forms, c.walls t = .ok forms ∧ ∀ wall ∈ forms, ∀ w : Vec, w.length = c.size →
      dot wall w = 0 → (∀ g ∈ forms, g ≠ wall → 0 < dot g w) →
      (∃ ε₀ > 0, ∀ ε, 0 < ε → ε < ε₀ →
        c.subdivision (subScaled w ε wall) = some (t.flip wall)) ∧
      ∃ forms', c.walls (t.flip wall) = .ok forms' ∧ scaleVec (-1) wall ∈ forms' ∧
        (t.flip wall).flip (scaleVec (-1) wall) = t := by
  obtain ⟨forms, hforms, hw⟩ := hc.exists_walls ht
  refine ⟨forms, hforms, fun wall hwall w hl hzero hpos => ?_⟩
  have hb := hw.bounds hc hwall hzero hpos
  obtain ⟨forms', hforms', hw'⟩ := hc.exists_walls (isRegular_flip hc ht hw hwall hb)
  exact ⟨exists_subdivision_flip hc ht hw hwall hl hb, forms', hforms',
    flip_flip_of_bounds hc ht hw hwall hw' hb⟩

theorem flip_eq_subdivision_and_flip_flip_square :
    square.IsFull ∧ square.IsRegular [[0, 1, 2], [1, 2, 3]] ∧
      square.walls [[0, 1, 2], [1, 2, 3]] = .ok [[1, -1, -1, 1, 0], [0, 0, 0, -1, 1]] ∧
      (∃ ε₀ > 0, ∀ ε, 0 < ε → ε < ε₀ →
        square.subdivision (subScaled [0, 0, 0, 1, 1] ε [0, 0, 0, -1, 1]) =
          some [[0, 1, 2], [1, 2, 4]]) ∧
      ∃ forms, square.walls [[0, 1, 2], [1, 2, 4]] = .ok forms ∧
        scaleVec (-1) [0, 0, 0, -1, 1] ∈ forms ∧
        Triangulation.flip [[0, 1, 2], [1, 2, 4]] (scaleVec (-1) [0, 0, 0, -1, 1]) =
          [[0, 1, 2], [1, 2, 3]] := by
  have hwalls : square.walls [[0, 1, 2], [1, 2, 3]] =
      .ok [[1, -1, -1, 1, 0], [0, 0, 0, -1, 1]] := by cbv
  have hflip : Triangulation.flip [[0, 1, 2], [1, 2, 3]] [0, 0, 0, -1, 1] =
      [[0, 1, 2], [1, 2, 4]] := by cbv
  obtain ⟨forms, hforms, h⟩ := flip_eq_subdivision_and_flip_flip isFull_square isRegular_square
  obtain rfl := Except.ok.inj (hforms.symm.trans hwalls)
  have hacross := h [0, 0, 0, -1, 1] (by decide) [0, 0, 0, 1, 1] rfl (by decide_cbv)
    (by decide_cbv)
  rw [hflip] at hacross
  exact ⟨isFull_square, isRegular_square, hwalls, hacross⟩

end Configuration

end Orthant
