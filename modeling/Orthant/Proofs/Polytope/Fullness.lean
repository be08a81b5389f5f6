import Mathlib
import Orthant.Proofs.Lattice.Cone
import Orthant.Proofs.Polytope.Dimension
import Orthant.Proofs.Polytope.Primitive
import Orthant.Proofs.Polytope.Proposal

/-! # The rank in words

The dimension of points is computed from differences that wrap. If no product of a facet with the
points wraps, the rank is still full for points that span their space: otherwise a primitive integral
form would be constant on the points modulo the number of words, so that some facet has a point at
least that far from it, whose product is not a word.
-/

namespace Orthant

open Finset Lifting

/-! ## Words -/

theorem two_pow_dvd_sub_wrap (x : ℤ) : (2 : ℤ) ^ 64 ∣ x - wrap x := by
  rw [wrap]
  split
  · simp
  · exact Int.dvd_self_sub_bmod

theorem abs_sub_lt_two_pow {x y : ℤ} (hx : isWord x = true) (hy : isWord y = true) :
    |x - y| < 2 ^ 64 := by
  rw [isWord_iff] at hx hy
  simp only [wordMin, wordMax] at hx hy
  rw [abs_lt]
  omega

namespace Facet

variable {f : Facet} {points : List (List ℤ)}

/-- The entries of the normal and its products with points are words. -/
structure Fits (f : Facet) (points : List (List ℤ)) : Prop where
  normal : ∀ x ∈ f.normal, isWord x = true
  product : ∀ q ∈ points, isWord (dotInt f.normal q) = true

instance (f : Facet) (points : List (List ℤ)) : Decidable (f.Fits points) :=
  decidable_of_iff ((∀ x ∈ f.normal, isWord x = true) ∧
    ∀ q ∈ points, isWord (dotInt f.normal q) = true) ⟨fun h => ⟨h.1, h.2⟩, fun h => ⟨h.1, h.2⟩⟩

end Facet

namespace Polytope

variable {n : ℕ} {points : List (List ℤ)} {program : FacetProgram}

/-- The hyperplanes that are looked at: the ends of the line, or those through proposed sets. -/
def candidates (p : Polytope) (program : FacetProgram) : List Facet :=
  if p.ambient = 1 then p.ends
  else (program p.ambient p.points).filterMap fun s => Facet.through? p.ambient (pick p.points s)

theorem candidates_line {p : Polytope} (h1 : p.ambient = 1) : p.candidates program = p.ends :=
  if_pos h1

theorem candidates_space {p : Polytope} (h1 : p.ambient ≠ 1) : p.candidates program =
    (program p.ambient p.points).filterMap fun s => Facet.through? p.ambient (pick p.points s) :=
  if_neg h1

/-- The products with the points are words, as the hyperplanes are found and as they are turned to
the points. -/
def ProductsFit (p : Polytope) (program : FacetProgram) : Prop :=
  ∀ f ∈ p.candidates program, f.Fits p.points ∧
    ((∀ q ∈ p.points, f.offset ≤ dotInt f.normal q) → f.neg.Fits p.points)

instance (p : Polytope) (program : FacetProgram) : Decidable (p.ProductsFit program) :=
  inferInstanceAs (Decidable (∀ f ∈ p.candidates program, f.Fits p.points ∧
    ((∀ q ∈ p.points, f.offset ≤ dotInt f.normal q) → f.neg.Fits p.points)))

end Polytope

/-! ## Integral forms -/

section Integral

variable {n : ℕ} {points : List (List ℤ)} {p : List ℤ} {V W : (Fin (n + 1) → ℤ) →+ ℤ}

def latticePoints (n : ℕ) (points : List (List ℤ)) : Set (Fin (n + 1) → ℤ) :=
  { x | ∃ p ∈ points, liftPoint n ℤ p = x }

def Facet.ofForm (V : (Fin (n + 1) → ℤ) →+ ℤ) : Facet :=
  ⟨List.ofFn fun r : Fin n => -V (Pi.single r.castSucc 1), V (Pi.single (Fin.last n) 1)⟩

def Facet.toForm (f : Facet) (n : ℕ) : (Fin (n + 1) → ℤ) →+ ℤ :=
  AddMonoidHom.mk' (fun x => f.offset * x (Fin.last n) -
    ∑ r : Fin n, f.normal.getD r 0 * x r.castSucc) fun x y => by
      simp only [Pi.add_apply, mul_add, sum_add_distrib]
      ring

theorem Facet.toForm_liftPoint (f : Facet) (hp : p.length = n) :
    f.toForm n (liftPoint n ℤ p) = f.offset - dotInt f.normal p := by
  rw [dotInt_eq_sum hp]
  simp [toForm, liftPoint]

theorem Facet.cast_toForm (f : Facet) (K : Type) [Field K] (x : Fin (n + 1) → ℤ) :
    ((f.toForm n x : ℤ) : K) = f.form n K fun r => (x r : K) := by
  simp [toForm, Facet.form_apply]

theorem Facet.toForm_single_castSucc (f : Facet) (r : Fin n) :
    f.toForm n (Pi.single r.castSucc 1) = -f.normal.getD r 0 := by
  simp [toForm, Pi.single_apply, (Fin.castSucc_lt_last r).ne']

theorem toForm_ofForm : (Facet.ofForm V).toForm n = V := by
  refine AddMonoidHom.functions_ext' _ _ _ fun r => AddMonoidHom.ext_int ?_
  refine Fin.lastCases ?_ (fun r => ?_) r
  · simp [Facet.toForm, Facet.ofForm]
  · simp [Facet.toForm, Facet.ofForm, Pi.single_apply]

theorem cast_liftPoint (K : Type) [Field K] (p : List ℤ) :
    (fun r => ((liftPoint n ℤ p r : ℤ) : K)) = liftPoint n K p := by
  funext r
  by_cases hr : (r : ℕ) < n <;> simp [liftPoint, hr]

theorem exists_integral (g : (Fin (n + 1) → ℚ) →ₗ[ℚ] ℚ) : ∃ V : (Fin (n + 1) → ℤ) →+ ℤ,
    ∃ s > 0, ∀ x : Fin (n + 1) → ℤ, (V x : ℚ) = s * g fun r => (x r : ℚ) := by
  obtain ⟨-, s, hs, hget⟩ :=
    primitive_spec (List.ofFn fun r : Fin (n + 1) => g fun j => if r = j then 1 else 0)
  set u := primitive (List.ofFn fun r : Fin (n + 1) => g fun j => if r = j then 1 else 0)
  refine ⟨AddMonoidHom.mk' (fun x => ∑ r : Fin (n + 1), u.getD r 0 * x r) fun x y => by
    simp only [Pi.add_apply, mul_add, sum_add_distrib], s, hs, fun x => ?_⟩
  have hentry : ∀ r : Fin (n + 1), ((u.getD r 0 : ℤ) : ℚ) = s * g fun j => if r = j then 1 else 0 :=
    fun r => by
      rw [hget, entry_eq_getElem (by simpa using r.isLt), List.getElem_ofFn]
  rw [LinearMap.pi_apply_eq_sum_univ g, mul_sum]
  simp only [AddMonoidHom.mk'_apply, Int.cast_sum, Int.cast_mul, hentry, smul_eq_mul]
  exact sum_congr rfl fun r _ => by ring

end Integral

namespace Configuration

variable {c : Configuration} {V : (Fin (c.dim + 1) → ℤ) →+ ℤ} {ℓ : (Fin (c.dim + 1) → ℤ) →+ ℤ}

theorem liftPoint_mem {i : ℕ} (hi : i < c.size) :
    liftPoint c.dim ℤ (c.pointAt i) ∈ latticePoints c.dim c.points :=
  ⟨_, pointAt_mem hi, rfl⟩

theorem form_ofForm_vector (V : (Fin (c.dim + 1) → ℤ) →+ ℤ) (K : Type) [Field K] (i : ℕ) :
    (Facet.ofForm V).form c.dim K (c.vector K i) =
      ((V (liftPoint c.dim ℤ (c.pointAt i)) : ℤ) : K) := by
  rw [← toForm_ofForm (V := V), Facet.cast_toForm, cast_liftPoint, toForm_ofForm]
  rfl

theorem IsFull.spans_latticePoints (hc : c.IsFull) : Spans (latticePoints c.dim c.points) := by
  intro V hV
  have hzero : (Facet.ofForm V).form c.dim ℚ = 0 := by
    refine LinearMap.ext_on hc.span ?_
    rintro _ ⟨i, hi, rfl⟩
    rw [form_ofForm_vector, hV _ (liftPoint_mem (mem_placeSet.mp hi)), Int.cast_zero,
      LinearMap.zero_apply]
  refine AddMonoidHom.ext fun x => ?_
  have hx := (Facet.ofForm V).cast_toForm ℚ x
  rw [hzero, toForm_ofForm, LinearMap.zero_apply, Int.cast_eq_zero] at hx
  exact hx

theorem supports_ofForm (hc : c.IsFull) (hℓ : IsFacetForm (latticePoints c.dim c.points) ℓ) :
    (Facet.ofForm ℓ).Supports c.dim c.points := by
  constructor
  · intro K _ _ h0
    refine hℓ.ne_zero (AddMonoidHom.ext fun x => ?_)
    have hx := (Facet.ofForm ℓ).cast_toForm K x
    rw [h0, toForm_ofForm, LinearMap.zero_apply, Int.cast_eq_zero] at hx
    exact hx
  · intro p hp
    have := hℓ.nonneg _ ⟨p, hp, rfl⟩
    rw [← toForm_ofForm (V := ℓ), Facet.toForm_liftPoint _ (hc.length p hp)] at this
    exact sub_nonneg.mp this

theorem exists_place {a : Fin (c.dim + 1) → ℤ} (ha : a ∈ latticePoints c.dim c.points) :
    ∃ i ∈ c.placeSet, liftPoint c.dim ℤ (c.pointAt i) = a := by
  obtain ⟨p, hp, rfl⟩ := ha
  obtain ⟨i, hi, rfl⟩ := List.mem_iff_getElem.mp hp
  exact ⟨i, mem_placeSet.mpr hi, congrArg _ (List.getD_eq_getElem _ _ hi)⟩

/-- The points on the facet of a facet form and one off it span the space. -/
theorem span_insert_zeros (hc : c.IsFull) (hℓ : IsFacetForm (latticePoints c.dim c.points) ℓ) {k : ℕ}
    (hk : ℓ (liftPoint c.dim ℤ (c.pointAt k)) ≠ 0) :
    Submodule.span ℚ (c.vector ℚ '' (insert k (c.placeSet.filter fun i =>
      ℓ (liftPoint c.dim ℤ (c.pointAt i)) = 0) : Finset ℕ)) = ⊤ := by
  by_contra hne
  -- A form that vanishes there too is a multiple of the facet form, and zero at the point off it.
  obtain ⟨g, hg, hker⟩ := Submodule.exists_le_ker_of_lt_top _ (lt_top_iff_ne_top.mpr hne)
  obtain ⟨V, s, hs, hV⟩ := exists_integral g
  have hcast : ∀ i, (V (liftPoint c.dim ℤ (c.pointAt i)) : ℚ) = s * g (c.vector ℚ i) := fun i => by
    rw [hV, cast_liftPoint]
    rfl
  have hVzero : ∀ i ∈ insert k (c.placeSet.filter fun i =>
      ℓ (liftPoint c.dim ℤ (c.pointAt i)) = 0), V (liftPoint c.dim ℤ (c.pointAt i)) = 0 := by
    intro i hi
    have hgi : g (c.vector ℚ i) = 0 := hker (Submodule.subset_span ⟨i, hi, rfl⟩)
    have hVi := hcast i
    rw [hgi, mul_zero, Int.cast_eq_zero] at hVi
    exact hVi
  obtain ⟨m, hm⟩ := hℓ.multiple V fun a ha ha0 => by
    obtain ⟨i, hi, rfl⟩ := exists_place ha
    exact hVzero i (mem_insert_of_mem (mem_filter.mpr ⟨hi, ha0⟩))
  have hm0 : m = 0 := by
    have hk0 := hVzero k (mem_insert_self _ _)
    rw [hm, mul_eq_zero] at hk0
    exact hk0.resolve_right hk
  apply hg
  refine LinearMap.ext_on hc.span ?_
  rintro _ ⟨i, -, rfl⟩
  have hVi := hcast i
  rw [hm, hm0, zero_mul, Int.cast_zero, zero_eq_mul] at hVi
  exact hVi.resolve_left hs.ne'

theorem exists_bounding_of_facetForm (hc : c.IsFull)
    (hℓ : IsFacetForm (latticePoints c.dim c.points) ℓ) : ∃ s k, c.Bounding s k ∧
      ∃ t : ℝ, 0 < t ∧ ∀ x, (Facet.ofForm ℓ).form c.dim ℝ x = t * coord (c.vector ℝ) s k x := by
  have hsup : (Facet.ofForm ℓ).Supports c.dim c.points := supports_ofForm hc hℓ
  have hzero : ∀ (K : Type) [Field K] [CharZero K], ∀ i ∈ c.placeSet.filter fun i =>
      ℓ (liftPoint c.dim ℤ (c.pointAt i)) = 0,
      (Facet.ofForm ℓ).form c.dim K (c.vector K i) = 0 := by
    intro K _ _ i hi
    rw [form_ofForm_vector, (mem_filter.mp hi).2, Int.cast_zero]
  obtain ⟨k, hk, hfk⟩ := hc.exists_vector_ne_zero (hsup.ne_zero ℚ)
  have hℓk : ℓ (liftPoint c.dim ℤ (c.pointAt k)) ≠ 0 := fun h0 =>
    hfk (by rw [form_ofForm_vector, h0, Int.cast_zero])
  obtain ⟨s, hs, hI, hks, herase⟩ :=
    exists_simplex_of_form (filter_subset _ _) (hzero ℚ) hk hfk (span_insert_zeros hc hℓ hℓk)
  exact ⟨s, k, bounding_of_form (form_vector_nonneg hc hsup) (hsup.ne_zero ℝ)
    (isSimplex_change_field hs hI) hI hks fun i hi hik =>
      hzero ℝ i (herase (mem_erase.mpr ⟨hik, hi⟩))⟩

theorem exists_candidate (hc : c.IsFull) (hdim : 0 < c.dim) {program : Polytope.FacetProgram}
    (hprogram : c.dim ≠ 1 → Polytope.FindsFacets c.dim c.points (program c.dim c.points))
    {s : Finset ℕ} {k : ℕ} (hb : c.Bounding s k) :
    ∃ g ∈ (Polytope.ofPoints c.dim c.points).candidates program, g.form c.dim ℝ ≠ 0 ∧
      ∀ i ∈ s, i ≠ k → dotInt g.normal (c.pointAt i) = g.offset := by
  by_cases h1 : c.dim = 1
  · obtain ⟨g, hg, hzero⟩ := exists_end hc hb h1
    refine ⟨g, (Polytope.candidates_line (p := .ofPoints c.dim c.points) h1).symm ▸ hg, ?_, hzero⟩
    exact (Polytope.supports_of_mem_ends h1 hc.length g hg).ne_zero ℝ
  · obtain ⟨l, hl, hlF, hind⟩ := (hprogram h1).independent _ (hb.isFacet hdim)
    have hlt := (hprogram h1).lt l hl
    obtain ⟨s', k', hb', hF', hfin⟩ := exists_bounding_of_affineIndependent hc hlt
      (hb.isFacet hdim) hlF ((hprogram h1).length l hl) hind
    obtain ⟨g, hg⟩ := exists_through hc (isSimplex_change_field hb'.simplex hb'.subset) hb'.subset
      hb'.mem hfin
    obtain ⟨-, hne, hvanish⟩ := through_spec hc hlt hg
    refine ⟨g, ?_, hne ℝ, fun i hi hik => ?_⟩
    · rw [Polytope.candidates_space h1]
      exact List.mem_filterMap.mpr ⟨l, hl, hg⟩
    · refine (form_vector_eq_zero_iff hc g ℝ (mem_placeSet.mp (hb.subset hi))).mp ?_
      rw [vector_eq_raise]
      refine form_raise_eq_zero hc hlt (hb.isFacet hdim) hlF hg ?_
      exact (realPoint_mem_faceAt (hb.subset hi)).mpr (hb.simplex.coord_other hi hik)

theorem facetForm_lt (hc : c.IsFull) (hdim : 0 < c.dim) {program : Polytope.FacetProgram}
    (hprogram : c.dim ≠ 1 → Polytope.FindsFacets c.dim c.points (program c.dim c.points))
    (hfit : (Polytope.ofPoints c.dim c.points).ProductsFit program)
    (hℓ : IsFacetForm (latticePoints c.dim c.points) ℓ) :
    ∀ a ∈ latticePoints c.dim c.points, ℓ a < 2 ^ 64 := by
  obtain ⟨s, k, hb, t, ht, hmul⟩ := exists_bounding_of_facetForm hc hℓ
  obtain ⟨g, hg, hne, hvanish⟩ := exists_candidate hc hdim hprogram hb
  have hgmul := fun x => hb.simplex.eq_smul_coord (f := g.form c.dim ℝ) (fun i hi hik =>
    (form_vector_eq_zero_iff hc g ℝ (mem_placeSet.mp (hb.subset hi))).mpr (hvanish i hi hik)) x
    hb.mem
  have hg0 : g.form c.dim ℝ (c.vector ℝ k) ≠ 0 := fun h0 =>
    hne (LinearMap.ext fun x => by rw [hgmul x, h0, zero_mul, LinearMap.zero_apply])
  have hform : ∀ i, ((g.toForm c.dim (liftPoint c.dim ℤ (c.pointAt i)) : ℤ) : ℝ) =
      g.form c.dim ℝ (c.vector ℝ i) := fun i => by
    rw [Facet.cast_toForm, cast_liftPoint]
    rfl
  obtain ⟨m, hm⟩ := hℓ.multiple (g.toForm c.dim) fun a ha ha0 => by
    obtain ⟨i, hi, rfl⟩ := exists_place ha
    have hi0 := hmul (c.vector ℝ i)
    rw [form_ofForm_vector, ha0, Int.cast_zero, zero_eq_mul] at hi0
    have hgi := hform i
    rw [hgmul, hi0.resolve_left ht.ne', mul_zero, Int.cast_eq_zero] at hgi
    exact hgi
  have hm1 : 1 ≤ |m| := by
    refine Int.one_le_abs ?_
    rintro rfl
    apply hg0
    rw [← hform, hm, zero_mul, Int.cast_zero]
  obtain ⟨j, hj⟩ : (s.erase k).Nonempty := by
    rw [← card_pos, card_erase_of_mem hb.mem, hb.simplex.card]
    simpa using hdim
  obtain ⟨hjk, hj⟩ := mem_erase.mp hj
  have hfits := (hfit g hg).1
  have hoffset : isWord g.offset = true :=
    hvanish j hj hjk ▸ hfits.product _ (pointAt_mem (mem_placeSet.mp (hb.subset hj)))
  rintro a ⟨p, hp, rfl⟩
  calc ℓ (liftPoint c.dim ℤ p)
      ≤ |m| * ℓ (liftPoint c.dim ℤ p) := le_mul_of_one_le_left (hℓ.nonneg _ ⟨p, hp, rfl⟩) hm1
    _ = |g.offset - dotInt g.normal p| := by
      rw [← Facet.toForm_liftPoint g (hc.length p hp), hm, abs_mul,
        abs_of_nonneg (hℓ.nonneg _ ⟨p, hp, rfl⟩)]
    _ < 2 ^ 64 := abs_sub_lt_two_pow hoffset (hfits.product p hp)

end Configuration

/-! ## Forms that are constant modulo the number of words -/

section Words

variable {n : ℕ} {points : List (List ℤ)} {p₀ q u : List ℤ}

theorem exists_primitive_null (hlen : ∀ p ∈ p₀ :: points, p.length = n)
    (h : (Polytope.ofPoints n (p₀ :: points)).isFull = false) :
    ∃ u : List ℤ, u.length = n ∧ IsPrimitive u ∧
      ∀ q ∈ points, ∑ r : Fin n, wrap (q.getD r 0 - p₀.getD r 0) * u.getD r 0 = 0 := by
  have hp₀ := hlen p₀ List.mem_cons_self
  have hrank : rank n ((differences (p₀ :: points)).map toVec) ≠ n := by
    simpa [Polytope.isFull, Polytope.ofPoints, affineDimension, hp₀] using h
  obtain ⟨v, hv⟩ : ∃ v, v ∈ kernel n ((differences (p₀ :: points)).map toVec) := by
    have hsum := rank_add_length_kernel n ((differences (p₀ :: points)).map toVec)
    exact List.exists_mem_of_length_pos (by omega)
  obtain ⟨hvl, ⟨i, hi, hvi⟩, hnull⟩ := mem_kernel (hasWidth_differences hlen) hv
  obtain ⟨hul, s, hs, hget⟩ := primitive_spec v
  refine ⟨primitive v, hul.trans hvl, isPrimitive_primitive hvi, fun q hq => ?_⟩
  have hrow := hnull _ (List.mem_map_of_mem (List.mem_map_of_mem hq))
  have hcast : ((∑ r : Fin n, wrap (q.getD r 0 - p₀.getD r 0) * (primitive v).getD r 0 : ℤ) : ℚ) =
      s * ∑ r : Fin n, entry (toVec (List.zipWith (fun x y => wrap (x - y)) q p₀)) r *
        entry v r := by
    push_cast
    rw [mul_sum]
    refine sum_congr rfl fun r _ => ?_
    rw [entry_difference hp₀ (hlen q (List.mem_cons_of_mem _ hq)), hget]
    ring
  rw [hrow, mul_zero] at hcast
  exact_mod_cast hcast

theorem two_pow_dvd_sub_of_null (hp₀ : p₀.length = n) (hq : q.length = n)
    (h : ∑ r : Fin n, wrap (q.getD r 0 - p₀.getD r 0) * u.getD r 0 = 0) :
    2 ^ 64 ∣ dotInt u p₀ - dotInt u q := by
  have hsum : dotInt u p₀ - dotInt u q = ∑ r : Fin n,
      ((wrap (q.getD r 0 - p₀.getD r 0) - (q.getD r 0 - p₀.getD r 0)) * u.getD r 0) := by
    rw [dotInt_eq_sum hp₀, dotInt_eq_sum hq]
    simp only [sub_mul, sum_sub_distrib, h]
    simp only [mul_comm (u.getD _ _)]
    ring
  rw [hsum]
  apply dvd_sum
  intro r _
  apply Dvd.dvd.mul_right
  rw [← dvd_neg, neg_sub]
  exact two_pow_dvd_sub_wrap _

/-- Points without full rank in words have an integral form, odd somewhere, whose values at the points
are multiples of the number of words. -/
theorem exists_odd_form (hlen : ∀ p ∈ points, p.length = n) (hne : points ≠ [])
    (h : (Polytope.ofPoints n points).isFull = false) :
    ∃ U : (Fin (n + 1) → ℤ) →+ ℤ, (∃ x, Odd (U x)) ∧ ∀ a ∈ latticePoints n points, 2 ^ 64 ∣ U a := by
  obtain ⟨p₀, rest, rfl⟩ := List.exists_cons_of_ne_nil hne
  obtain ⟨u, hu, hprimitive, hnull⟩ := exists_primitive_null hlen h
  let f : Facet := ⟨u, dotInt u p₀⟩
  refine ⟨f.toForm n, ?odd, ?dvd⟩
  case odd =>
    obtain ⟨x, hx, hodd⟩ := hprimitive.exists_odd
    obtain ⟨r, hr, rfl⟩ := List.mem_iff_getElem.mp hx
    refine ⟨Pi.single (⟨r, hu ▸ hr⟩ : Fin n).castSucc 1, ?_⟩
    rw [Facet.toForm_single_castSucc, List.getD_eq_getElem _ _ hr]
    exact hodd.neg
  case dvd =>
    rintro a ⟨q, hq, rfl⟩
    rw [f.toForm_liftPoint (hlen q hq)]
    rcases List.mem_cons.mp hq with rfl | hrest
    · simp [f]
    · exact two_pow_dvd_sub_of_null (hlen p₀ List.mem_cons_self) (hlen q hq) (hnull q hrest)

end Words

namespace Polytope

variable {n : ℕ} {points : List (List ℤ)} {program : FacetProgram}

/-- The rank in words of points that span their space is full, if the proposed sets find the facets
and no product wraps. -/
theorem isFull_of_productsFit (hn : 1 ≤ n) (hlen : ∀ q ∈ points, q.length = n)
    (hspan : affineSpan ℝ (pointSet n points) = ⊤)
    (hprogram : n ≠ 1 → FindsFacets n points (program n points))
    (hfit : (ofPoints n points).ProductsFit program) : (ofPoints n points).isFull = true := by
  by_contra hfull
  obtain ⟨U, hodd, hdvd⟩ :=
    exists_odd_form hlen (ne_nil_of_affineSpan hspan) (Bool.eq_false_iff.mpr hfull)
  let c : Configuration := ⟨points, n, []⟩
  have hc : c.IsFull := (Configuration.isFull_iff_affineSpan hlen).mpr hspan
  have hdivisible : IsDivisible (latticePoints n points) U 64 := by
    refine ⟨?finite, ⟨Pi.evalAddMonoidHom _ (Fin.last n), ?positive⟩, hc.spans_latticePoints, hodd,
      hdvd⟩
    case finite =>
      refine (points.toFinset.image (liftPoint n ℤ)).finite_toSet.subset ?_
      rintro a ⟨p, hp, rfl⟩
      simpa using ⟨p, hp, rfl⟩
    case positive =>
      rintro a ⟨p, -, rfl⟩
      simp [liftPoint]
  obtain ⟨ℓ, hℓ, a, ha, hle⟩ := hdivisible.exists_two_pow_le
  exact (Configuration.facetForm_lt hc hn hprogram hfit hℓ a ha).not_ge hle

/-- Three points off a line whose differences wrap onto one: some product of a facet wraps. -/
example : ¬ (ofPoints 2 [[2 ^ 62, -2 ^ 62 - 1], [-2 ^ 62, 2 ^ 62 - 1], [0, 2 ^ 63 - 1]]).ProductsFit
    facetSimplices := by decide +kernel

end Polytope

end Orthant
