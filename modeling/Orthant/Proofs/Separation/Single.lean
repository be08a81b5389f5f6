import Mathlib
import Orthant.Proofs.Separation.Heredity
import Orthant.Proofs.Triangulation.Single
import Orthant.Proofs.Triangulation.Truncation

/-! # One negative exponent

A simplex cannot contain some of the points but not all of them if there is one only. So vertices of a
simplex with one negative exponent inside are nonseparable, as soon as a search may hand out one
triangulation.
-/

namespace Orthant

namespace Separation

/-- The program does not fail at a point: the simplex is degenerate, or the point is located. -/
def CoordinateProgram.Answers (program : CoordinateProgram) (n : ℕ) (vertices : List Vec)
    (x : Point) : Prop :=
  program n vertices = .ok none ∨
    ∃ locate o, program n vertices = .ok (some locate) ∧ locate x = .ok o

variable {program : CoordinateProgram} {n k : ℕ} {b : List ℤ}

theorem separatesBy_singleton (t : Tolerance) (o : Option Vec) : separatesBy t k [o] = false := by
  refine Bool.eq_false_iff.mpr fun h => ?_
  obtain ⟨⟨l, hl, hin⟩, ⟨o', ho', hout⟩, -⟩ := separatesBy_iff.mp h
  obtain rfl := List.mem_singleton.mp hl
  rw [hout l (List.mem_singleton.mp ho')] at hin
  cases hin

theorem separates_singleton {tol : Except Error Tolerance} {t : Tolerance} (htol : tol = .ok t)
    {vertices : List Vec} (hne : vertices.isEmpty = false)
    (hprogram : program.Answers n vertices (pointOf b)) :
    separates tol n vertices (.ok ([b].map fun b => .ok (pointOf b))) program = .ok false := by
  rcases hprogram with hnone | ⟨locate, o, hsome, ho⟩
  · rw [separates, hne, hnone]
    rfl
  · refine (separates_cons_eq_ok hne hsome).mpr ⟨t, [o], htol, ?_, separatesBy_singleton t o⟩
    exact mapM_eq_ok (g := fun _ => o) fun b' hb' => by rw [List.mem_singleton.mp hb', ho]

section Simplex

variable {c : Configuration} (h : c.size = c.dim + 1) (hc : c.IsFull)

include h hc

theorem coordinateProgram_answers (full : RankTest) (hb : b.length = c.dim) :
    (coordinateProgram full).Answers c.dim (c.points.map toVec) (pointOf b) := by
  have hsimplex := Configuration.isSimplex_range h hc
  have hprogram := coordinateProgram_eq (Configuration.range_mem_simplices h) hsimplex full
  obtain ⟨locate, hlocate, hb'⟩ := exists_exactCoordinates
    (Configuration.range_mem_simplices h) hsimplex
  rw [Configuration.size, map_toVec_range] at hprogram hlocate
  rw [CoordinateProgram.Answers, hprogram]
  split
  · exact .inr ⟨locate, _, hlocate, hb' b hb⟩
  · exact .inl rfl

theorem isNonseparable_of_size (hsup : c.Supported) {facets : Polytope.FacetProgram}
    (hfs : (Polytope.ofPoints c.dim c.points).facets facets = .ok c.facets)
    (hin : strictlyInside c.facets b = true) {tol : Value} {t : Tolerance}
    (htol : Tolerance.ofValue tol = .ok t) {limit : Option Quantity}
    (hlimit : ∀ l ∈ limit, l.below 1 = false)
    (hprogram : program.Answers c.dim (c.points.map toVec) (pointOf b)) (verbose : Bool)
    (clock : Clock) (p : Configuration.Programs) :
    (isNonseparable ⟨tol, verbose, .of limit none⟩ clock c.dim c.points [b] p program facets).2 =
      .ok true := by
  have hinside : ∀ b' ∈ [b], strictlyInside c.facets b' = true := fun b' hb' => by
    rwa [List.mem_singleton.mp hb']
  have hbounds : (Bounds.of limit none).refuse clock 1 = none :=
    Bounds.refuse_of_not_limit (by simpa using hlimit)
  have hfuel : 2 ≤ c.searchFuel := Nat.succ_le_succ (Nat.two_pow_pos _)
  have hne : (c.points.map toVec).isEmpty = false := by
    rw [List.isEmpty_map, List.isEmpty_eq_false_iff]
    exact List.ne_nil_of_length_eq_add_one h
  have hcell : separatingCell? tol c.dim c.points [b] [List.range c.size] program = .ok none := by
    rw [separatingCell?, Configuration.size, map_toVec_range]
    exact bind_eq_ok.mpr ⟨false, separates_singleton htol hne hprogram, rfl⟩
  rw [isNonseparable, isNonseparableIn_of_inside (Polytope.isFull_of_facets hfs).1
    fun _ => ⟨c.facets, hfs, hinside⟩]
  simp only [searchCells, Polytope.ofPoints]
  rw [Search.ofPoints_of_size h hc hsup hfs]
  dsimp only
  rw [Search.firstSome_range (by rw [hcell]; rfl) hbounds p hfuel]
  rfl

end Simplex

end Separation

end Orthant
