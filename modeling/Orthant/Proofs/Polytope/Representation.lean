import Mathlib
import Orthant.Proofs.Polytope.Fullness
import Orthant.Proofs.Polytope.Sublist

/-! # The inequalities of a hull

When the proposed sets of points find the facets of the hull and no product wraps, the facets are
returned: their inequalities cut out the hull, each facet of the hull belongs to exactly one of them,
and their normals are primitive. So the tests for a lattice point tell the interior of the hull from
its boundary.
-/

namespace Orthant

open Finset Lifting Module

namespace Facet

variable {f : Facet} {points : List (List ℤ)}

theorem Fits.stored (h : f.Fits points) {q : List ℤ} (hq : q ∈ points)
    (he : dotInt f.normal q = f.offset) : f.stored = .ok f :=
  stored_iff.mpr ⟨h.normal, he ▸ h.product q hq⟩

/-- A hyperplane with all points on one side is turned to them. -/
theorem Fits.supporting (h : f.Fits points) (s : List ℕ)
    (hside : (∀ q ∈ points, dotInt f.normal q ≤ f.offset) ∨
      ∀ q ∈ points, f.offset ≤ dotInt f.normal q) :
    (f.supporting points s = .ok f ∧ ∀ q ∈ points, dotInt f.normal q ≤ f.offset) ∨
      (f.supporting points s = .ok f.neg ∧ ∀ q ∈ points, f.offset ≤ dotInt f.normal q) := by
  have hword : points.map (dotWord f.normal) = points.map (dotInt f.normal) :=
    List.map_congr_left fun q hq => wrap_of_isWord (h.product q hq)
  rw [supporting_eq h.normal, hword]
  by_cases hle : ∀ q ∈ points, dotInt f.normal q ≤ f.offset
  · left
    rw [if_pos (by simpa using hle)]
    exact ⟨rfl, hle⟩
  · right
    have hge := hside.resolve_left hle
    rw [if_neg (by simpa using hle), if_pos (by simpa using hge)]
    exact ⟨rfl, hge⟩

end Facet

namespace Configuration

variable {c : Configuration} {f f' : Facet} {l : List ℕ} {L : List (List ℕ)}

/-- The inequality of a facet of the hull, with a primitive normal. -/
structure IsSide (c : Configuration) (f : Facet) : Prop where
  length : f.normal.length = c.dim
  primitive : IsPrimitive f.normal
  supports : f.Supports c.dim c.points
  bounding : ∃ s k, c.Bounding s k ∧ ∀ i ∈ s, i ≠ k → dotInt f.normal (c.pointAt i) = f.offset

theorem IsSide.isFacet (hc : c.IsFull) (hdim : 0 < c.dim) (h : c.IsSide f) :
    IsFacet c.hull (c.faceAt (f.form c.dim ℝ)) := by
  obtain ⟨s, k, hb, hzero⟩ := h.bounding
  obtain ⟨t, ht, hmul⟩ :=
    exists_form_eq_mul_coord (K := ℝ) hc h.supports hb.simplex hb.subset hb.mem hzero
  rw [faceAt_eq_of_mul ht hmul]
  exact hb.isFacet hdim

theorem IsSide.eq_of_faceAt_eq (hc : c.IsFull) (h : c.IsSide f) (h' : c.IsSide f')
    (he : c.faceAt (f.form c.dim ℝ) = c.faceAt (f'.form c.dim ℝ)) : f = f' := by
  obtain ⟨s, k, hb, hzero⟩ := h.bounding
  have hzero' : ∀ i ∈ s, i ≠ k → dotInt f'.normal (c.pointAt i) = f'.offset := by
    intro i hi hik
    have hi := hb.subset hi
    have hmem : realPoint c.dim (c.pointAt i) ∈ c.faceAt (f.form c.dim ℝ) := by
      rw [realPoint_mem_faceAt hi, form_vector_eq_zero_iff hc f ℝ (mem_placeSet.mp hi)]
      exact hzero i ‹_› hik
    rw [he, realPoint_mem_faceAt hi, form_vector_eq_zero_iff hc f' ℝ (mem_placeSet.mp hi)] at hmem
    exact hmem
  obtain ⟨t, ht, hmul⟩ :=
    exists_form_eq_mul_coord (K := ℝ) hc h.supports hb.simplex hb.subset hb.mem hzero
  obtain ⟨t', ht', hmul'⟩ :=
    exists_form_eq_mul_coord (K := ℝ) hc h'.supports hb.simplex hb.subset hb.mem hzero'
  symm
  apply Facet.eq_of_form_eq_mul h.length h'.length h.primitive h'.primitive (div_pos ht' ht)
  intro x
  rw [hmul, hmul', div_mul_eq_mul_div, eq_div_iff ht.ne']
  ring

/-! ## Proposed sets -/

theorem exists_side_of_through (hc : c.IsFull) (hdim : 0 < c.dim)
    (hL : Polytope.FindsFacets c.dim c.points L) (hl : l ∈ L)
    (hf : Facet.through? c.dim (Polytope.pick c.points l) = some f) (hfit : f.Fits c.points)
    (hneg : (∀ q ∈ c.points, f.offset ≤ dotInt f.normal q) → f.neg.Fits c.points) :
    ∃ f', f.supporting c.points l = .ok f' ∧ f'.stored = .ok f' ∧ c.IsSide f' := by
  have hlt : ∀ i ∈ l, i < c.size := hL.lt l hl
  obtain ⟨F, hF, hlF⟩ := hL.on_facet l hl
  obtain ⟨s, k, hb, herase⟩ := exists_bounding_of_through hc hlt hF hlF hf
  obtain ⟨hlen, hne, hvanish⟩ := through_spec hc hlt hf
  have hzero : ∀ i ∈ s, i ≠ k → dotInt f.normal (c.pointAt i) = f.offset := fun i hi hik =>
    hvanish i (List.mem_toFinset.mp (herase (mem_erase.mpr ⟨hik, hi⟩)))
  have hl0 : l ≠ [] := by
    rintro rfl
    exact hdim.ne (hL.length _ hl)
  obtain ⟨i, hi⟩ := List.exists_mem_of_ne_nil l hl0
  have hprimitive : IsPrimitive f.normal := Facet.isPrimitive_of_through
    (Polytope.pick_length (p := .ofPoints c.dim c.points) hc.length hlt)
    (by simpa [Polytope.pick] using hl0) hf
  rcases hfit.supporting l (one_side_of_vanishing hc hb hzero) with ⟨hok, hle⟩ | ⟨hok, hge⟩
  · refine ⟨f, hok, hfit.stored (pointAt_mem (hlt i hi)) (hvanish i hi), ?_⟩
    exact ⟨hlen, hprimitive, ⟨hne, hle⟩, s, k, hb, hzero⟩
  · have hat : ∀ q, dotInt f.neg.normal q = -dotInt f.normal q := fun q => dotInt_neg _ q
    refine ⟨f.neg, hok, (hneg hge).stored (pointAt_mem (hlt i hi)) ?_, ?_⟩
    · rw [hat, hvanish i hi]
      rfl
    constructor
    · simpa [Facet.neg] using hlen
    · exact hprimitive.map_neg
    · exact Facet.supports_neg hne hge
    · refine ⟨s, k, hb, fun j hj hjk => ?_⟩
      rw [hat, hzero j hj hjk]
      rfl

theorem hasFacets_of_facetsThrough (hc : c.IsFull) (hdim : 0 < c.dim)
    (hL : Polytope.FindsFacets c.dim c.points L)
    (h : (Polytope.ofPoints c.dim c.points).facetsThrough L = .ok c.facets) : c.HasFacets := by
  intro s k hb
  have hF := hb.isFacet hdim
  obtain ⟨l, hl, hlF, hind⟩ := hL.independent _ hF
  obtain ⟨s', k', hb', hF', hfin⟩ :=
    exists_bounding_of_affineIndependent hc (hL.lt l hl) hF hlF (hL.length l hl) hind
  obtain ⟨f, hf, hzero⟩ := exists_facet_through hc hb' h hl hfin
  have hvanish : ∀ i ∈ s', i ≠ k' → f.form c.dim ℝ (c.vector ℝ i) = 0 := fun i hi hik =>
    (form_vector_eq_zero_iff hc f ℝ (mem_placeSet.mp (hb'.subset hi))).mpr (hzero i hi hik)
  refine ⟨f, hf, fun i hi hik => ?_⟩
  have hmem := (realPoint_mem_faceAt (hb.subset hi)).mpr (hb.simplex.coord_other hi hik)
  rw [hF', realPoint_mem_faceAt (hb.subset hi)] at hmem
  refine (form_vector_eq_zero_iff hc f ℝ (mem_placeSet.mp (hb.subset hi))).mp ?_
  rw [hb'.simplex.eq_smul_coord hvanish _ hb'.mem, hmem, mul_zero]

/-- The facets that were found leave none out if the proposed sets find the facets. -/
theorem IsFull.hasFacets_of_findsFacets (hc : c.IsFull) {program : Polytope.FacetProgram}
    (hprogram : c.dim ≠ 1 → Polytope.FindsFacets c.dim c.points (program c.dim c.points))
    (h : (Polytope.ofPoints c.dim c.points).facets program = .ok c.facets) : c.HasFacets := by
  obtain ⟨-, hdim, ⟨h1, h⟩ | ⟨h1, h⟩⟩ := Polytope.facets_eq_ok h
  · intro s k hb
    rw [mapM_eq_self (fun _ _ => Facet.stored_eq_ok) h]
    exact exists_end hc hb h1
  · exact hasFacets_of_facetsThrough hc hdim (hprogram h1) h

/-! ## The line -/

theorem isSide_of_line (hc : c.IsFull) (h1 : c.dim = 1) (hlen : f.normal.length = c.dim)
    (hp : IsPrimitive f.normal) (hsup : f.Supports c.dim c.points) {q : List ℤ}
    (hq : q ∈ c.points) (he : dotInt f.normal q = f.offset) : c.IsSide f := by
  refine ⟨hlen, hp, hsup, ?_⟩
  obtain ⟨i, hi, rfl⟩ := List.mem_iff_getElem.mp hq
  have hat : c.pointAt i = c.points[i] := List.getD_eq_getElem _ _ hi
  have hzero : ∀ j ∈ ({i} : Finset ℕ), f.form c.dim ℝ (c.vector ℝ j) = 0 := by
    intro j hj
    rw [mem_singleton.mp hj, form_vector_eq_zero_iff hc f ℝ hi, hat, he]
  have hne : c.vector ℝ i ≠ 0 := by
    intro h0
    rw [vector_eq_raise] at h0
    simpa using congrFun h0 (Fin.last c.dim)
  have hspan : finrank ℝ (Submodule.span ℝ (c.vector ℝ '' ({i} : Finset ℕ))) = c.dim := by
    rw [coe_singleton, Set.image_singleton, finrank_span_singleton hne, h1]
  obtain ⟨s, k, hs, hI, hk, herase⟩ := hc.exists_simplex (hsup.ne_zero ℝ)
    (singleton_subset_iff.mpr (mem_placeSet.mpr hi)) hzero hspan.ge
  have hvanish : ∀ j ∈ s, j ≠ k → f.form c.dim ℝ (c.vector ℝ j) = 0 := fun j hj hjk =>
    hzero j (herase (mem_erase.mpr ⟨hjk, hj⟩))
  refine ⟨s, k, (bounding_of_form (form_vector_nonneg hc hsup) (hsup.ne_zero ℝ) hs hI hk
    hvanish).1, fun j hj hjk => ?_⟩
  exact (form_vector_eq_zero_iff hc f ℝ (mem_placeSet.mp (hI hj))).mp (hvanish j hj hjk)

end Configuration

namespace Polytope

open Orthant.Configuration

variable {n : ℕ} {points : List (List ℤ)} {program : FacetProgram}

theorem candidate_of_mem_facets {p : Polytope} {fs : List Facet} (h : p.facets program = .ok fs)
    {f' : Facet} (hf' : f' ∈ fs) : ∃ f ∈ p.candidates program,
      f' = f ∨ f' = f.neg ∧ ∀ q ∈ p.points, f.offset ≤ dotWord f.normal q := by
  obtain ⟨-, -, ⟨h1, h⟩ | ⟨h1, h⟩⟩ := facets_eq_ok h
  · obtain rfl := mapM_eq_self (fun _ _ => Facet.stored_eq_ok) h
    exact ⟨f', by rwa [candidates_line h1], .inl rfl⟩
  · obtain ⟨s, hs, f, hf, hsup⟩ := (facetsThrough_eq_ok h).1 f' hf'
    refine ⟨f, ?_, (Facet.supporting_eq_ok hsup).imp And.left id⟩
    rw [candidates_space h1]
    exact List.mem_filterMap.mpr ⟨s, hs, hf⟩

theorem fits_of_mem_facets {p : Polytope} {fs : List Facet} (hfit : p.ProductsFit program)
    (h : p.facets program = .ok fs) : ∀ f ∈ fs, f.Fits p.points := by
  intro f' hf'
  obtain ⟨f, hf, rfl | ⟨rfl, hge⟩⟩ := candidate_of_mem_facets h hf'
  · exact (hfit f' hf).1
  · obtain ⟨hfits, hneg⟩ := hfit f hf
    refine hneg fun q hq => ?_
    rw [← wrap_of_isWord (hfits.product q hq)]
    exact hge q hq

theorem exists_mem_ends (hlen : ∀ q ∈ points, q.length = 1) (hne : points ≠ []) :
    (∃ q ∈ points, dotInt [1] q = maximum ((ofPoints 1 points).coordinates 0)) ∧
      ∃ q ∈ points, dotInt [-1] q = -minimum ((ofPoints 1 points).coordinates 0) := by
  have hxs : (ofPoints 1 points).coordinates 0 ≠ [] := by simpa [coordinates, ofPoints] using hne
  constructor
  · obtain ⟨q, hq, he⟩ := List.mem_map.mp (maximum_mem hxs)
    obtain ⟨x, rfl⟩ := List.length_eq_one_iff.mp (hlen q hq)
    refine ⟨[x], hq, ?_⟩
    rw [coordinates, ← he]
    simp [dotInt]
  · obtain ⟨q, hq, he⟩ := List.mem_map.mp (minimum_mem hxs)
    obtain ⟨x, rfl⟩ := List.length_eq_one_iff.mp (hlen q hq)
    refine ⟨[x], hq, ?_⟩
    rw [coordinates, ← he]
    simp [dotInt]

theorem isPrimitive_unit {x : ℤ} (hx : IsUnit x) : IsPrimitive [x] := by
  intro d hd
  exact isUnit_of_dvd_unit (hd x (List.mem_singleton_self x)) hx

section Facets

variable (hlen : ∀ q ∈ points, q.length = n) (hspan : affineSpan ℝ (pointSet n points) = ⊤)
  (hfit : (ofPoints n points).ProductsFit program)

include hlen hspan hfit

theorem facets_line_returns (hfull : (ofPoints n points).isFull = true) (h1 : n = 1) :
    ∃ fs, (ofPoints n points).facets program = .ok fs ∧ fs.Nodup ∧
      (∀ f ∈ fs, IsSide ⟨points, n, fs⟩ f) ∧ HasFacets ⟨points, n, fs⟩ := by
  subst h1
  let c : Configuration := ⟨points, 1, (ofPoints 1 points).ends⟩
  have hc : c.IsFull := (Configuration.isFull_iff_affineSpan hlen).mpr hspan
  obtain ⟨⟨q, hq, hmax⟩, q', hq', hmin⟩ := exists_mem_ends hlen (ne_nil_of_affineSpan hspan)
  have hstored : ∀ f ∈ (ofPoints 1 points).ends, f.stored = .ok f := by
    intro f hf
    have hfits := (hfit f (by simpa [candidates, ofPoints] using hf)).1
    rcases List.mem_pair.mp hf with rfl | rfl
    · exact hfits.stored hq hmax
    · exact hfits.stored hq' hmin
  have hok : (ofPoints 1 points).facets program = .ok (ofPoints 1 points).ends := by
    rw [facets_line hfull rfl]
    simpa using mapM_eq_ok (g := id) hstored
  have hsup : c.Supported := supports_of_mem_ends (p := ofPoints 1 points) rfl hlen
  refine ⟨_, hok, by simp [ends], fun f hf => ?_, fun s k hb => exists_end (c := c) hc hb rfl⟩
  rcases List.mem_pair.mp hf with rfl | rfl
  · exact isSide_of_line (c := c) hc rfl rfl (isPrimitive_unit isUnit_one) (hsup _ hf) hq hmax
  · exact isSide_of_line (c := c) hc rfl rfl (isPrimitive_unit isUnit_one.neg) (hsup _ hf) hq' hmin

theorem facets_space_returns (hfull : (ofPoints n points).isFull = true) (hn : 2 ≤ n)
    (hL : FindsFacets n points (program n points)) :
    ∃ fs, (ofPoints n points).facets program = .ok fs ∧ fs.Nodup ∧
      (∀ f ∈ fs, IsSide ⟨points, n, fs⟩ f) ∧ HasFacets ⟨points, n, fs⟩ := by
  have hc : ∀ fs, (⟨points, n, fs⟩ : Configuration).IsFull := fun fs =>
    (Configuration.isFull_iff_affineSpan hlen).mpr hspan
  have hpos : 0 < n := by omega
  have hside : ∀ (fs : List Facet), ∀ s ∈ program n points, ∀ f,
      Facet.through? n (pick points s) = some f → ∃ f', f.supporting points s = .ok f' ∧
        f'.stored = .ok f' ∧ IsSide ⟨points, n, fs⟩ f' := by
    intro fs s hs f hf
    have hcand : f ∈ (ofPoints n points).candidates program := by
      have h1 : (ofPoints n points).ambient ≠ 1 := by
        change n ≠ 1
        omega
      rw [candidates_space h1]
      exact List.mem_filterMap.mpr ⟨s, hs, hf⟩
    exact exists_side_of_through (c := ⟨points, n, fs⟩) (hc fs) hpos hL hs hf (hfit f hcand).1
      (hfit f hcand).2
  obtain ⟨fs, hfs, hnd⟩ := facetsThrough_returns (p := ofPoints n points) (L := program n points)
    fun s hs f hf => by
      obtain ⟨f', hf', hstored, -⟩ := hside [] s hs f hf
      exact ⟨f', hf', hstored⟩
  have hsides : ∀ f ∈ fs, IsSide ⟨points, n, fs⟩ f := by
    intro f' hf'
    obtain ⟨s, hs, f, hf, hsup⟩ := (facetsThrough_eq_ok hfs).1 f' hf'
    obtain ⟨g, hg, -, hgside⟩ := hside fs s hs f hf
    obtain rfl := Except.ok.inj (hsup.symm.trans hg)
    exact hgside
  refine ⟨fs, by rw [facets_space hfull hn, hfs], hnd, hsides, ?_⟩
  exact hasFacets_of_facetsThrough (c := ⟨points, n, fs⟩) (hc fs) hpos hL hfs

/-- The facets of points that span their space are returned if the proposed sets find them. -/
theorem facets_returns (hn : 1 ≤ n) (hprogram : n ≠ 1 → FindsFacets n points (program n points)) :
    ∃ fs, (ofPoints n points).facets program = .ok fs ∧ fs.Nodup ∧
      (∀ f ∈ fs, IsSide ⟨points, n, fs⟩ f) ∧ HasFacets ⟨points, n, fs⟩ := by
  have hfull := isFull_of_productsFit hn hlen hspan hprogram hfit
  by_cases h1 : n = 1
  · exact facets_line_returns hlen hspan hfit hfull h1
  · exact facets_space_returns hlen hspan hfit hfull (by omega) (hprogram h1)

end Facets

/-- The part of the hull of points where an inequality is an equality. -/
def faceOf (n : ℕ) (points : List (List ℤ)) (f : Facet) : Set (Fin n → ℝ) :=
  { x ∈ convexHull ℝ (pointSet n points) |
    ∑ r : Fin n, ((f.normal.getD r 0 : ℤ) : ℝ) * x r = f.offset }

theorem faceOf_eq_faceAt (fs : List Facet) (f : Facet) : faceOf n points f =
    (⟨points, n, fs⟩ : Configuration).faceAt (f.form n ℝ) := by
  ext x
  simp only [faceOf, faceAt, hull, form_raise, Set.mem_ofPred_eq, sub_eq_zero]
  exact and_congr_right fun _ => eq_comm

/-- The facets of points that span their space are returned if the proposed sets find them and no
product wraps. They cut the hull out, each facet of the hull belongs to
exactly one of them, and their normals are primitive. A lattice point passes the tests when it is in
the interior of the hull, or in the hull but not in the interior. -/
theorem facets_eq_representation (hn : 1 ≤ n) (hlen : ∀ q ∈ points, q.length = n)
    (hspan : affineSpan ℝ (pointSet n points) = ⊤)
    (hprogram : n ≠ 1 → FindsFacets n points (program n points))
    (hfit : (ofPoints n points).ProductsFit program) :
    ∃ fs, (ofPoints n points).facets program = .ok fs ∧ fs.Nodup ∧
      convexHull ℝ (pointSet n points) =
        { x | ∀ f ∈ fs, ∑ r : Fin n, ((f.normal.getD r 0 : ℤ) : ℝ) * x r ≤ f.offset } ∧
      Set.BijOn (faceOf n points) { f | f ∈ fs }
        { F | IsFacet (convexHull ℝ (pointSet n points)) F } ∧
      (∀ f ∈ fs, f.normal.length = n ∧ (∃ x ∈ f.normal, x ≠ 0) ∧ IsPrimitive f.normal) ∧
      ∀ b : List ℤ, b.length = n → (∀ x ∈ b, isWord x = true) →
        (∀ f ∈ fs, isWord (dotInt f.normal b) = true) → ∃ inside boundary,
          (ofPoints n points).containsStrictly ((ofPoints n points).facets program)
            (.list (b.map .ofInt)) = .ok inside ∧
          (ofPoints n points).meetsBoundary ((ofPoints n points).facets program)
            (.list (b.map .ofInt)) = .ok boundary ∧
          (inside = true ↔ realPoint n b ∈ interior (convexHull ℝ (pointSet n points))) ∧
          (boundary = true ↔ realPoint n b ∈ convexHull ℝ (pointSet n points) ∧
            realPoint n b ∉ interior (convexHull ℝ (pointSet n points))) := by
  obtain ⟨fs, hfs, hnd, hsides, hfacets⟩ := facets_returns hlen hspan hfit hn hprogram
  let c : Configuration := ⟨points, n, fs⟩
  have hc : c.IsFull := (Configuration.isFull_iff_affineSpan hlen).mpr hspan
  have hsup : c.Supported := fun f hf => (hsides f hf).supports
  refine ⟨fs, hfs, hnd, ?_, ⟨?_, ?_, ?_⟩, fun f hf => ⟨(hsides f hf).length,
    (hsides f hf).primitive.exists_ne_zero, (hsides f hf).primitive⟩, fun b hb hwords hprod => ?_⟩
  · ext x
    rw [mem_convexHull_iff (c := c) hc hsup hfacets]
    simp only [form_raise, sub_nonneg]
    rfl
  · intro f hf
    rw [faceOf_eq_faceAt fs]
    exact (hsides f hf).isFacet hc hn
  · intro f hf f' hf' he
    rw [faceOf_eq_faceAt fs, faceOf_eq_faceAt fs] at he
    exact (hsides f hf).eq_of_faceAt_eq hc (hsides f' hf') he
  · intro F hF
    obtain ⟨s, k, hb, rfl⟩ := exists_bounding (c := c) hc hF
    obtain ⟨f, hf, hzero⟩ := hfacets s k hb
    obtain ⟨t, ht, hmul⟩ :=
      exists_form_eq_mul_coord (K := ℝ) hc (hsup f hf) hb.simplex hb.subset hb.mem hzero
    exact ⟨f, hf, (faceOf_eq_faceAt fs f).trans (faceAt_eq_of_mul ht hmul)⟩
  · rw [hfs]
    exact ⟨_, _, containsStrictly_point hb hwords, meetsBoundary_point hb hwords,
      strictlyInside_iff (c := c) hc hsup hfacets hb hprod,
      onBoundary_iff (c := c) hc hsup hfacets hb hprod⟩

def cornersTwice : List (List ℤ) := [[0, 0], [3, 0], [0, 3], [3, 0], [1, 1]]

theorem facets_eq_representation_cornersTwice :
    affineSpan ℝ (pointSet 2 cornersTwice) = ⊤ ∧
      FindsFacets 2 cornersTwice (facetSimplices 2 cornersTwice) ∧
      (ofPoints 2 cornersTwice).ProductsFit facetSimplices ∧
      ∃ fs, (ofPoints 2 cornersTwice).facets = .ok fs ∧ fs.Nodup ∧
        Set.BijOn (faceOf 2 cornersTwice) { f | f ∈ fs }
          { F | IsFacet (convexHull ℝ (pointSet 2 cornersTwice)) F } := by
  have hlen : ∀ q ∈ cornersTwice, q.length = 2 := by decide
  have hspan : affineSpan ℝ (pointSet 2 cornersTwice) = ⊤ := by
    obtain ⟨inv, hinv⟩ := Option.isSome_iff_exists.mp
      (show ((⟨cornersTwice, 2, []⟩ : Configuration).inverse [0, 1, 2]).isSome = true by decide)
    exact (Configuration.isFull_iff_affineSpan (c := ⟨cornersTwice, 2, []⟩) hlen).mp
      (isFull_of_inverse hlen (by decide) hinv)
  have hfinds := findsFacets_facetSimplices two_pos hlen hspan
  have hfit : (ofPoints 2 cornersTwice).ProductsFit facetSimplices := by decide +kernel
  obtain ⟨fs, hfs, hnd, -, hbij, -⟩ := facets_eq_representation (by decide) hlen hspan
    (fun _ => hfinds) hfit
  exact ⟨hspan, hfinds, hfit, fs, hfs, hnd, hbij⟩

end Polytope

end Orthant
