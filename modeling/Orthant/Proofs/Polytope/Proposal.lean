import Mathlib
import Orthant.Proofs.Polytope.Face

/-! # Sets of points on facets

A set of points on a facet that determines a hyperplane contains the vertices of a simplex but one,
so the hyperplane is that of the facet. A program finds the facets when all its sets lie on facets
and every facet has one that is independent; trying all sets of points does.
-/

namespace Orthant

open Finset Lifting Module

namespace Configuration

variable {c : Configuration} {s : Finset ℕ} {k : ℕ} {l : List ℕ} {f : Facet}
  {F : Set (Fin c.dim → ℝ)}

theorem form_vector_eq_zero_iff (hc : c.IsFull) (f : Facet) (K : Type*) [Field K] [CharZero K]
    {i : ℕ} (hi : i < c.size) :
    f.form c.dim K (c.vector K i) = 0 ↔ dotInt f.normal (c.pointAt i) = f.offset := by
  rw [hc.form_vector f K hi, Int.cast_eq_zero, sub_eq_zero, eq_comm]

theorem coord_ne_zero (hs : IsSimplex ℝ (c.vector ℝ) s) (hk : k ∈ s) :
    coord (K := ℝ) (c.vector ℝ) s k ≠ 0 := by
  intro h0
  have hone := hs.coord_self hk
  rw [h0] at hone
  exact zero_ne_one hone

/-! ## Hyperplanes through points -/

section Through

variable (hc : c.IsFull) (hl : ∀ i ∈ l, i < c.size)

include hc hl

theorem through_spec (h : Facet.through? c.dim (Polytope.pick c.points l) = some f) :
    f.normal.length = c.dim ∧ (∀ (K : Type) [Field K] [CharZero K], f.form c.dim K ≠ 0) ∧
      ∀ i ∈ l, dotInt f.normal (c.pointAt i) = f.offset := by
  obtain ⟨hlen, hne, hzero⟩ := Facet.through_eq_some
    (Polytope.pick_length (p := .ofPoints c.dim c.points) hc.length hl) h
  exact ⟨hlen, hne, fun i hi => hzero _ (List.mem_map_of_mem hi)⟩

theorem span_of_through (h : Facet.through? c.dim (Polytope.pick c.points l) = some f)
    (hk : f.form c.dim ℚ (c.vector ℚ k) ≠ 0) :
    Submodule.span ℚ (c.vector ℚ '' (insert k l.toFinset : Finset ℕ)) = ⊤ := by
  by_contra hne
  obtain ⟨g, hg, hker⟩ := Submodule.exists_le_ker_of_lt_top _ (lt_top_iff_ne_top.mpr hne)
  obtain ⟨x, hx⟩ := normalForm_surjective (f.form c.dim ℚ)
  obtain ⟨y, rfl⟩ := normalForm_surjective g
  have hxmem := (mem_nullSpace_pick (x := x) hc hl).mpr fun i hi => by
    rw [hx, form_vector_eq_zero_iff hc f ℚ (hl i hi)]
    exact (through_spec hc hl h).2.2 i hi
  have hymem := (mem_nullSpace_pick (x := y) hc hl).mpr fun i hi =>
    hker (Submodule.subset_span ⟨i, by simp [hi], rfl⟩)
  have hone : finrank ℚ (nullSpace (c.dim + 1)
      ((Polytope.pick c.points l).map fun p => toVec p ++ [-1])) = 1 := by
    rw [finrank_nullSpace (hasWidth_pick hc hl)]
    rw [Facet.through?] at h
    split at h
    case h_1 v hv => rw [hv, List.length_singleton]
    case h_2 => cases h
  have hx0 : (⟨x, hxmem⟩ : nullSpace (c.dim + 1)
      ((Polytope.pick c.points l).map fun p => toVec p ++ [-1])) ≠ 0 := by
    intro h0
    rw [← hx, Subtype.mk.inj h0, normalForm_zero] at hk
    exact hk rfl
  obtain ⟨t, ht⟩ := (finrank_eq_one_iff_of_nonzero' _ hx0).mp hone ⟨y, hymem⟩
  have hyx : normalForm y = t • f.form c.dim ℚ := by
    rw [← hx, ← normalForm_smul]
    exact congrArg normalForm (congrArg Subtype.val ht).symm
  have hzero : normalForm y (c.vector ℚ k) = 0 :=
    hker (Submodule.subset_span ⟨k, by simp, rfl⟩)
  rw [hyx, LinearMap.smul_apply, smul_eq_mul, mul_eq_zero] at hzero
  apply hg
  rw [hyx, hzero.resolve_right hk, zero_smul]

theorem exists_simplex_of_through
    (h : Facet.through? c.dim (Polytope.pick c.points l) = some f) :
    ∃ s k, IsSimplex ℝ (c.vector ℝ) s ∧ s ⊆ c.placeSet ∧ k ∈ s ∧ s.erase k ⊆ l.toFinset := by
  obtain ⟨-, hne, hvanish⟩ := through_spec hc hl h
  obtain ⟨k, hk, hfk⟩ := hc.exists_vector_ne_zero (hne ℚ)
  have hl' : l.toFinset ⊆ c.placeSet := fun i hi =>
    mem_placeSet.mpr (hl i (List.mem_toFinset.mp hi))
  have hzero : ∀ i ∈ l.toFinset, f.form c.dim ℚ (c.vector ℚ i) = 0 := by
    intro i hi
    have hi := List.mem_toFinset.mp hi
    exact (form_vector_eq_zero_iff hc f ℚ (hl i hi)).mpr (hvanish i hi)
  obtain ⟨s, hs, hI, hks, herase⟩ :=
    exists_simplex_of_form hl' hzero hk hfk (span_of_through hc hl h hfk)
  exact ⟨s, k, isSimplex_change_field hs hI, hI, hks, herase⟩

omit hl in
theorem bounding_of_mem_facet (hF : IsFacet c.hull F)
    (hlF : ∀ i ∈ l, realPoint c.dim (c.pointAt i) ∈ F) (hs : IsSimplex ℝ (c.vector ℝ) s)
    (hI : s ⊆ c.placeSet) (hk : k ∈ s) (herase : s.erase k ⊆ l.toFinset) :
    c.Bounding s k ∧ F = c.faceAt (coord (K := ℝ) (c.vector ℝ) s k) := by
  obtain ⟨s₀, k₀, hb, rfl⟩ := exists_bounding hc hF
  obtain ⟨hb', t, ht, hmul⟩ :=
    bounding_of_form hb.nonneg (coord_ne_zero hb.simplex hb.mem) hs hI hk fun i hi hik => by
      have hil := List.mem_toFinset.mp (herase (mem_erase.mpr ⟨hik, hi⟩))
      exact (realPoint_mem_faceAt (hI hi)).mp (hlF i hil)
  exact ⟨hb', faceAt_eq_of_mul ht hmul⟩

/-- A set on a facet that determines a hyperplane contains the vertices of a simplex but one. -/
theorem exists_bounding_of_through (hF : IsFacet c.hull F)
    (hlF : ∀ i ∈ l, realPoint c.dim (c.pointAt i) ∈ F)
    (h : Facet.through? c.dim (Polytope.pick c.points l) = some f) :
    ∃ s k, c.Bounding s k ∧ s.erase k ⊆ l.toFinset := by
  obtain ⟨s, k, hs, hI, hk, herase⟩ := exists_simplex_of_through hc hl h
  exact ⟨s, k, (bounding_of_mem_facet hc hF hlF hs hI hk herase).1, herase⟩

/-- An independent set on a facet consists of the vertices of a simplex but one. -/
theorem exists_bounding_of_affineIndependent (hF : IsFacet c.hull F)
    (hlF : ∀ i ∈ l, realPoint c.dim (c.pointAt i) ∈ F) (hlen : l.length = c.dim)
    (hind : AffineIndependent ℝ fun i : Fin l.length => realPoint c.dim (c.pointAt l[i])) :
    ∃ s k, c.Bounding s k ∧ F = c.faceAt (coord (K := ℝ) (c.vector ℝ) s k) ∧
      l.toFinset = s.erase k := by
  obtain ⟨s₀, k₀, hb, hF₀⟩ := exists_bounding hc hF
  have hl' : l.toFinset ⊆ c.placeSet := fun i hi =>
    mem_placeSet.mpr (hl i (List.mem_toFinset.mp hi))
  have hspan : finrank ℝ (Submodule.span ℝ (c.vector ℝ '' l.toFinset)) = c.dim := by
    have hfin := finrank_span_eq_card (linearIndependent_raise_iff.mpr hind)
    have himage : c.vector ℝ '' l.toFinset =
        Set.range fun i : Fin l.length => raise (realPoint c.dim (c.pointAt l[i])) := by
      ext x
      simp only [Set.mem_image, mem_coe, List.mem_toFinset, vector_eq_raise, List.mem_iff_getElem,
        Set.mem_range, Fin.getElem_fin, Fin.exists_iff]
      constructor
      · rintro ⟨_, ⟨i, hi, rfl⟩, rfl⟩
        exact ⟨i, hi, rfl⟩
      · rintro ⟨i, hi, rfl⟩
        exact ⟨_, ⟨i, hi, rfl⟩, rfl⟩
    rw [himage, hfin, Fintype.card_fin, hlen]
  obtain ⟨s, k, hs, hI, hk, herase⟩ :=
    hc.exists_simplex (coord_ne_zero hb.simplex hb.mem) hl' (fun i hi => by
      rw [← realPoint_mem_faceAt (hl' hi), ← hF₀]
      exact hlF i (List.mem_toFinset.mp hi)) hspan.ge
  obtain ⟨hb', hF'⟩ := bounding_of_mem_facet hc hF hlF hs hI hk herase
  refine ⟨s, k, hb', hF', (eq_of_subset_of_card_le herase ?_).symm⟩
  rw [card_erase_of_mem hk, hs.card]
  simpa [hlen] using l.toFinset_card_le

/-- The hyperplane through points on a facet contains the facet. -/
theorem form_raise_eq_zero (hF : IsFacet c.hull F)
    (hlF : ∀ i ∈ l, realPoint c.dim (c.pointAt i) ∈ F)
    (h : Facet.through? c.dim (Polytope.pick c.points l) = some f) {x : Fin c.dim → ℝ}
    (hx : x ∈ F) : f.form c.dim ℝ (raise x) = 0 := by
  obtain ⟨-, -, hvanish⟩ := through_spec hc hl h
  obtain ⟨s, k, hs, hI, hk, herase⟩ := exists_simplex_of_through hc hl h
  obtain ⟨-, rfl⟩ := bounding_of_mem_facet hc hF hlF hs hI hk herase
  have hzero : ∀ i ∈ s, i ≠ k → f.form c.dim ℝ (c.vector ℝ i) = 0 := fun i hi hik =>
    (form_vector_eq_zero_iff hc f ℝ (mem_placeSet.mp (hI hi))).mpr
      (hvanish i (List.mem_toFinset.mp (herase (mem_erase.mpr ⟨hik, hi⟩))))
  rw [hs.eq_smul_coord hzero _ hk, hx.2, mul_zero]

/-- A hyperplane that contains a facet is the one through any independent set of points there. -/
theorem exists_through_of_affineIndependent (hF : IsFacet c.hull F)
    (hlF : ∀ i ∈ l, realPoint c.dim (c.pointAt i) ∈ F) (hlen : l.length = c.dim)
    (hind : AffineIndependent ℝ fun i : Fin l.length => realPoint c.dim (c.pointAt l[i]))
    (hf : ∀ x ∈ F, f.form c.dim ℝ (raise x) = 0) :
    ∃ g, Facet.through? c.dim (Polytope.pick c.points l) = some g ∧
      ∃ r, ∀ x, f.form c.dim ℝ x = r * g.form c.dim ℝ x := by
  obtain ⟨s, k, hb, -, hfin⟩ := exists_bounding_of_affineIndependent hc hl hF hlF hlen hind
  obtain ⟨g, hg⟩ := exists_through hc (isSimplex_change_field hb.simplex hb.subset) hb.subset
    hb.mem hfin
  obtain ⟨-, hne, hvanish⟩ := through_spec hc hl hg
  have hmem : ∀ i ∈ s, i ≠ k → i ∈ l := fun i hi hik =>
    List.mem_toFinset.mp (hfin ▸ mem_erase.mpr ⟨hik, hi⟩)
  have hfmul := fun x => hb.simplex.eq_smul_coord (f := f.form c.dim ℝ) (fun i hi hik => by
    rw [vector_eq_raise]
    exact hf _ (hlF i (hmem i hi hik))) x hb.mem
  have hgmul := fun x => hb.simplex.eq_smul_coord (f := g.form c.dim ℝ) (fun i hi hik =>
    (form_vector_eq_zero_iff hc g ℝ (hl i (hmem i hi hik))).mpr (hvanish i (hmem i hi hik))) x
    hb.mem
  have hgk : g.form c.dim ℝ (c.vector ℝ k) ≠ 0 := fun h0 =>
    hne ℝ (LinearMap.ext fun x => by rw [hgmul x, h0, zero_mul, LinearMap.zero_apply])
  refine ⟨g, hg, f.form c.dim ℝ (c.vector ℝ k) / g.form c.dim ℝ (c.vector ℝ k), fun x => ?_⟩
  rw [hfmul x, hgmul x, ← mul_assoc, div_mul_cancel₀ _ hgk]

theorem exists_facet_of_supports (hdim : 0 < c.dim)
    (h : Facet.through? c.dim (Polytope.pick c.points l) = some f) {f' : Facet}
    (hf' : f'.Supports c.dim c.points)
    (hvanish : ∀ i ∈ l, dotInt f'.normal (c.pointAt i) = f'.offset) :
    ∃ F, IsFacet c.hull F ∧ ∀ i ∈ l, realPoint c.dim (c.pointAt i) ∈ F := by
  have hzero : ∀ i ∈ l, f'.form c.dim ℝ (c.vector ℝ i) = 0 := fun i hi =>
    (form_vector_eq_zero_iff hc f' ℝ (hl i hi)).mpr (hvanish i hi)
  obtain ⟨s, k, hs, hI, hk, herase⟩ := exists_simplex_of_through hc hl h
  obtain ⟨hb, t, ht, hmul⟩ :=
    bounding_of_form (form_vector_nonneg hc hf') (hf'.ne_zero ℝ) hs hI hk fun i hi hik =>
      hzero i (List.mem_toFinset.mp (herase (mem_erase.mpr ⟨hik, hi⟩)))
  refine ⟨_, hb.isFacet hdim, fun i hi => ?_⟩
  rw [← faceAt_eq_of_mul ht hmul, realPoint_mem_faceAt (mem_placeSet.mpr (hl i hi))]
  exact hzero i hi

end Through

end Configuration

namespace Polytope

open Orthant.Configuration

/-- Every proposed set has `n` places of points and lies on a facet of their hull. -/
structure OnFacets (n : ℕ) (points : List (List ℤ)) (L : List (List ℕ)) : Prop where
  length : ∀ s ∈ L, s.length = n
  lt : ∀ s ∈ L, ∀ i ∈ s, i < points.length
  on_facet : ∀ s ∈ L, ∃ F, IsFacet (convexHull ℝ (pointSet n points)) F ∧
    ∀ i ∈ s, realPoint n (points.getD i []) ∈ F

/-- The proposed sets lie on facets, and every facet has an independent one. -/
structure FindsFacets (n : ℕ) (points : List (List ℤ)) (L : List (List ℕ)) : Prop extends
    OnFacets n points L where
  independent : ∀ F, IsFacet (convexHull ℝ (pointSet n points)) F → ∃ s ∈ L,
    (∀ i ∈ s, realPoint n (points.getD i []) ∈ F) ∧
      AffineIndependent ℝ fun i : Fin s.length => realPoint n (points.getD s[i] [])

theorem findsFacets_facetSimplices {n : ℕ} {points : List (List ℤ)} (hn : 0 < n)
    (hlen : ∀ q ∈ points, q.length = n) (hspan : affineSpan ℝ (pointSet n points) = ⊤) :
    FindsFacets n points (facetSimplices n points) := by
  let c : Configuration := ⟨points, n, []⟩
  have hc : c.IsFull := (Configuration.isFull_iff_affineSpan hlen).mpr hspan
  refine ⟨⟨fun s hs => ?length, fun s hs => lt_of_mem_facetSimplices hs, fun l hl => ?on_facet⟩,
    fun F hF => ?independent⟩
  case length => exact (mem_choices_range.mp (List.mem_filter.mp hs).1).2.1
  case on_facet =>
    have hlt : ∀ i ∈ l, i < c.size := lt_of_mem_facetSimplices hl
    have hsup := (List.mem_filter.mp hl).2
    rw [supports] at hsup
    split at hsup
    · cases hsup
    case h_2 f hf =>
      obtain ⟨-, hne, hvanish⟩ := through_spec (c := c) hc hlt hf
      simp only [Bool.or_eq_true, List.all_eq_true, decide_eq_true_eq] at hsup
      rcases hsup with hsup | hsup
      · exact exists_facet_of_supports (c := c) hc hlt hn hf ⟨hne, hsup⟩ hvanish
      · apply exists_facet_of_supports (c := c) hc hlt hn hf (Facet.supports_neg hne hsup)
        intro i hi
        rw [Facet.neg, dotInt_neg, hvanish i hi]
  case independent =>
    obtain ⟨s, k, hb, rfl⟩ := exists_bounding (c := c) hc hF
    have hmem : ∀ i ∈ (s.erase k).sort, i ≠ k ∧ i ∈ s := fun i hi =>
      mem_erase.mp ((mem_sort _).mp hi)
    refine ⟨_, sort_mem_facetSimplices hc hb, fun i hi => ?_, ?_⟩
    · exact (realPoint_mem_faceAt (hb.subset (hmem i hi).2)).mpr
        (hb.simplex.coord_other (hmem i hi).2 (hmem i hi).1)
    · have hindep := hb.simplex.linearIndependent.comp
        (fun i : Fin (s.erase k).sort.length => (⟨_, (hmem _ (List.getElem_mem i.isLt)).2⟩ : s))
        fun i j hij => Fin.ext ((sort_nodup _ _).getElem_inj_iff.mp (congrArg Subtype.val hij))
      simp only [Function.comp_def, vector_eq_raise] at hindep
      exact linearIndependent_raise_iff.mp hindep

end Polytope

/-- Hyperplanes through sets of points on facets have the points on one side. -/
theorem Configuration.IsFull.oneSided {c : Configuration} (hc : c.IsFull)
    {program : Polytope.FacetProgram}
    (hprogram : c.dim ≠ 1 → Polytope.OnFacets c.dim c.points (program c.dim c.points))
    (h : (Polytope.ofPoints c.dim c.points).facets program = .ok c.facets) : c.OneSided := by
  obtain ⟨-, -, ⟨h1, h⟩ | ⟨h1, h⟩⟩ := Polytope.facets_eq_ok h
  · have hends := mapM_eq_self (fun _ _ => Facet.stored_eq_ok) h
    exact fun f hf => .inl (Polytope.supports_of_mem_ends h1 hc.length f (hends ▸ hf))
  intro f' hf'
  obtain ⟨l, hl, f, hf, hsup⟩ := (Polytope.facetsThrough_eq_ok h).1 f' hf'
  have hlt := (hprogram h1).lt l hl
  obtain ⟨F, hF, hlF⟩ := (hprogram h1).on_facet l hl
  obtain ⟨-, hne, hvanish⟩ := through_spec hc hlt hf
  obtain ⟨s, k, hb, herase⟩ := exists_bounding_of_through hc hlt hF hlF hf
  have hside := one_side_of_vanishing hc hb fun i hi hik =>
    hvanish i (List.mem_toFinset.mp (herase (mem_erase.mpr ⟨hik, hi⟩)))
  have hsides : f.Supports c.dim c.points ∨ f.neg.Supports c.dim c.points :=
    hside.imp (fun hle => ⟨hne, hle⟩) (Facet.supports_neg hne)
  rcases Facet.supporting_eq_ok hsup with ⟨rfl, -⟩ | ⟨rfl, -⟩
  · exact hsides
  · rw [Facet.neg_neg]
    exact hsides.symm

end Orthant
