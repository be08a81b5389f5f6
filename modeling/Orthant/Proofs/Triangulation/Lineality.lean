import Mathlib
import Orthant.Proofs.Triangulation.Covering

/-! # The lineality of heights

Heights that are the values of an affine function lie on one hyperplane, so no point is above or
below any cell. Adding them, or scaling by a positive factor, keeps the subdivision, and the forms of
a triangulation do not see them.
-/

namespace Orthant

open Finset Lifting

namespace Configuration

variable {c : Configuration} {σ : Cell} {t : Triangulation} {g w : Vec} {j : ℕ}

/-! ## Affine functions -/

/-- The value of an affine function at a point, by its slopes and its value at 0. -/
def affineAt (c : Configuration) (u : Vec) (v : ℚ) (i : ℕ) : ℚ := dot (toVec (c.pointAt i)) u + v

/-- The values of an affine function at all points. -/
def affineHeights (c : Configuration) (u : Vec) (v : ℚ) : Vec :=
  (List.range c.size).map (c.affineAt u v)

/-- Heights scaled by a factor, with the values of an affine function added. -/
def tilted (c : Configuration) (s : ℚ) (w u : Vec) (v : ℚ) : Vec :=
  (List.range c.size).map fun i => s * entry w i + c.affineAt u v i

def affineForm (c : Configuration) (u : Vec) (v : ℚ) : (Fin (c.dim + 1) → ℚ) →ₗ[ℚ] ℚ :=
  normalForm (Fin.snoc (α := fun _ => ℚ) (fun r => entry u r) (-v))

theorem affineForm_vector (hc : c.IsFull) (u : Vec) (v : ℚ) {i : ℕ} (hi : i < c.size) :
    c.affineForm u v (c.vector ℚ i) = c.affineAt u v i := by
  have hlen : (toVec (c.pointAt i)).length ≤ c.dim := by simp [toVec, hc.length_pointAt hi]
  rw [affineForm, vector, normalForm_liftPoint (hc.length_pointAt hi),
    Facet.sum_entry_row (hc.length_pointAt hi), affineAt, dot_eq_sum_of_le hlen, Finset.sum_range]
  simp [entry_toVec]

section Affine

variable (hc : c.IsFull) (u : Vec) (v : ℚ)

include hc

theorem entry_tilted (s : ℚ) (w : Vec) : ∀ i ∈ c.placeSet, entry (c.tilted s w u v) i =
    ((fun i => c.affineForm u v (c.vector ℚ i)) + s • entry w) i := by
  intro i hi
  have hi := mem_placeSet.mp hi
  rw [tilted, entry_map_range _ hi, Pi.add_apply, Pi.smul_apply, smul_eq_mul,
    affineForm_vector hc u v hi, add_comm]

theorem dot_affineHeights (h : c.IsFold σ j) (hg : c.form σ j = .ok g) :
    dot g (c.affineHeights u v) = 0 := by
  rw [dot_eq_sum_placeSet (form_spec hc h hg).1]
  calc ∑ i ∈ c.placeSet, entry g i * entry (c.affineHeights u v) i
      = ∑ i ∈ c.placeSet, c.affineForm u v (entry g i • c.vector ℚ i) := by
        refine sum_congr rfl fun i hi => ?_
        have hi := mem_placeSet.mp hi
        rw [map_smul, smul_eq_mul, affineForm_vector hc u v hi, affineHeights,
          entry_map_range _ hi]
    _ = 0 := by rw [← map_sum, sum_form_vector hc h hg, map_zero]

theorem induces_tilted_iff {s : ℚ} (hs : 0 < s) :
    Induces (c.vector ℚ) c.placeSet (entry (c.tilted s w u v)) t.cells ↔
      Induces (c.vector ℚ) c.placeSet (entry w) t.cells := by
  have he := entry_tilted hc u v s w
  refine Iff.trans ?_ (induces_tilt_iff (c.affineForm u v) hs)
  exact ⟨fun h => h.congr he, fun h => h.congr fun i hi => (he i hi).symm⟩

end Affine

/-- Heights that are scaled, with an affine function added, have the same subdivision, and the forms
of every triangulation vanish on the values of affine functions. -/
theorem subdivision_tilted (hc : c.IsFull) :
    (∀ s : ℚ, 0 < s → ∀ (w u : Vec) (v : ℚ),
      c.subdivision (c.tilted s w u v) = c.subdivision w) ∧
    ∀ t, c.IsComplex t → c.IsGeometric t → ∃ forms, c.walls t = .ok forms ∧
      ∀ g ∈ forms, ∀ (u : Vec) (v : ℚ), dot g (c.affineHeights u v) = 0 := by
  constructor
  · intro s hs w u v
    refine Option.ext fun t => ?_
    rw [subdivision_eq_some_iff hc, subdivision_eq_some_iff hc, induces_tilted_iff hc u v hs]
  · intro t ht hgeo
    obtain ⟨forms, hforms, hw⟩ := walls_eq_ok hc (hgeo.isCover ht)
    refine ⟨forms, hforms, fun g hg u v => ?_⟩
    obtain ⟨σ, -, j, hfold, hok⟩ := hw.fold g hg
    exact dot_affineHeights hc u v hfold hok

theorem subdivision_tilted_square : square.IsFull ∧
    square.subdivision (square.tilted (1 / 2) [0, 0, 0, 1, 2] [-3, 1 / 3] 7) =
      some [[0, 1, 2], [1, 2, 3]] ∧
    ∃ forms, square.walls [[0, 1, 2], [1, 2, 3]] = .ok forms ∧
      ∀ g ∈ forms, dot g (square.affineHeights [-3, 1 / 3] 7) = 0 := by
  obtain ⟨hsub, hwalls⟩ := subdivision_tilted isFull_square
  obtain ⟨ht, hgeo⟩ := isGeometric_square
  obtain ⟨forms, hforms, hzero⟩ := hwalls _ ht hgeo
  refine ⟨isFull_square, ?_, forms, hforms, fun g hg => hzero g hg _ _⟩
  rw [hsub _ (by norm_num)]
  decide_cbv

end Configuration

end Orthant
