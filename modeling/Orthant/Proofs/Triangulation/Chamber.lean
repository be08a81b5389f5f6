import Mathlib
import Orthant.Proofs.Triangulation.Enumeration

/-! # Chambers

The heights that induce one triangulation form a chamber. The walls of a regular triangulation look
at two cells around a ridge, or at one cell and an unused point, and they cut the whole chamber out.
-/

namespace Orthant

open Lifting

namespace Configuration

variable {c : Configuration} {t : Triangulation}

theorem IsWalls.pos_iff_induces {forms : List Vec} (hc : c.IsFull) (ht : c.IsRegular t)
    (hw : c.IsWalls t forms) (w : Vec) :
    (∀ g ∈ forms, 0 < dot g w) ↔ Induces (c.vector ℚ) c.placeSet (entry w) t.cells := by
  obtain ⟨htc, v, hv⟩ := hc.isRegular_iff.mp ht
  rw [(hw.cutsOut hc htc hv).induces_iff]
  constructor
  · intro h _ hmem
    obtain ⟨g, hg, rfl⟩ := mem_formSet.mp hmem
    rw [← dot_eq_sum_placeSet (hw.length hc g hg)]
    exact h g hg
  · intro h g hg
    rw [dot_eq_sum_placeSet (hw.length hc g hg)]
    exact h _ (mem_formSet.mpr ⟨g, hg, rfl⟩)

/-- The walls of a regular triangulation are all positive exactly at the heights whose subdivision it
is. -/
theorem walls_pos_iff_subdivision (hc : c.IsFull) (ht : c.IsRegular t) :
    ∃ forms, c.walls t = .ok forms ∧
      ∀ w : Vec, (∀ g ∈ forms, 0 < dot g w) ↔ c.subdivision w = some t := by
  obtain ⟨forms, hforms, hw⟩ := hc.exists_walls ht
  refine ⟨forms, hforms, fun w => ?_⟩
  rw [hw.pos_iff_induces hc ht, subdivision_eq_some_iff hc]
  exact (and_iff_right (hc.isRegular_iff.mp ht).1).symm

def square : Configuration :=
  ⟨[[0, 0], [1, 0], [0, 1], [1, 1], [1, 1]], 2,
    [⟨[0, -1], 0⟩, ⟨[-1, 0], 0⟩, ⟨[1, 0], 1⟩, ⟨[0, 1], 1⟩]⟩

theorem isFull_square : square.IsFull := by
  obtain ⟨inv, h⟩ := Option.isSome_iff_exists.mp
    (show (square.inverse [0, 1, 2]).isSome = true by decide)
  exact isFull_of_inverse (by decide) (by decide) h

theorem isRegular_square : square.IsRegular [[0, 1, 2], [1, 2, 3]] :=
  ⟨[0, 0, 0, 1, 2], rfl, by decide_cbv⟩

theorem walls_pos_iff_subdivision_square :
    square.IsFull ∧ square.IsRegular [[0, 1, 2], [1, 2, 3]] ∧
      ∃ forms, square.walls [[0, 1, 2], [1, 2, 3]] = .ok forms ∧
        ∀ w : Vec, (∀ g ∈ forms, 0 < dot g w) ↔
          square.subdivision w = some [[0, 1, 2], [1, 2, 3]] :=
  ⟨isFull_square, isRegular_square, walls_pos_iff_subdivision isFull_square isRegular_square⟩

end Configuration

end Orthant
