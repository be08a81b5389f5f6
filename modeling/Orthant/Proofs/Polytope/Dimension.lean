import Mathlib
import Orthant.Proofs.Triangulation.Hull

/-! # The dimension of points

The rank of the differences to the first point counts the linear forms that take different values at
the points. These forms do not depend on the order of the points, on repetitions or on translations,
so the rank does not either. It is full where no such form is missing, which is where some cell has
an inverse.
-/

namespace Orthant

open Finset

variable {n : ℕ} {points points' : List (List ℤ)}

/-! ## Constant forms -/

def constantForms (n : ℕ) (points : List (List ℤ)) : Submodule ℚ (Fin n → ℚ) where
  carrier := { x | ∀ p ∈ points, ∀ q ∈ points,
    ∑ r : Fin n, ((p.getD r 0 : ℤ) : ℚ) * x r = ∑ r : Fin n, ((q.getD r 0 : ℤ) : ℚ) * x r }
  zero_mem' := fun _ _ _ _ => by simp
  add_mem' := fun hx hy p hp q hq => by
    simp only [Pi.add_apply, mul_add, sum_add_distrib, hx p hp q hq, hy p hp q hq]
  smul_mem' := fun s x hx p hp q hq => by
    simp only [Pi.smul_apply, smul_eq_mul, mul_left_comm _ s, ← mul_sum, hx p hp q hq]

theorem mem_constantForms {x : Fin n → ℚ} : x ∈ constantForms n points ↔
    ∀ p ∈ points, ∀ q ∈ points,
      ∑ r : Fin n, ((p.getD r 0 : ℤ) : ℚ) * x r = ∑ r : Fin n, ((q.getD r 0 : ℤ) : ℚ) * x r :=
  Iff.rfl

theorem constantForms_congr (h : ∀ p, p ∈ points' ↔ p ∈ points) :
    constantForms n points' = constantForms n points := by
  ext x
  simp only [mem_constantForms, h]

theorem ne_nil_of_affineSpan (hspan : affineSpan ℝ (pointSet n points) = ⊤) : points ≠ [] := by
  rintro rfl
  have hempty : pointSet n [] = ∅ := by simp [pointSet]
  rw [hempty, AffineSubspace.span_empty] at hspan
  exact bot_ne_top hspan

/-- Points span their space when the linear forms that are constant on them are zero. -/
theorem affineSpan_eq_top_iff (hlen : ∀ p ∈ points, p.length = n) :
    affineSpan ℝ (pointSet n points) = ⊤ ↔ ∀ (x : Fin n → ℚ) (y : ℚ),
      (∀ p ∈ points, ∑ r : Fin n, ((p.getD r 0 : ℤ) : ℚ) * x r = y) → x = 0 ∧ y = 0 := by
  let c : Configuration := ⟨points, n, []⟩
  rw [← Configuration.isFull_iff_affineSpan (c := c) hlen]
  have hform : ∀ (z : Fin (n + 1) → ℚ) (i : ℕ), i < c.size →
      Configuration.normalForm z (c.vector ℚ i) =
        ∑ r : Fin n, (((c.pointAt i).getD r 0 : ℤ) : ℚ) * z r.castSucc - z (Fin.last n) := by
    intro z i hi
    have hp := hlen _ (Configuration.pointAt_mem hi)
    change Configuration.normalForm z (liftPoint n ℚ (c.pointAt i)) = _
    rw [Configuration.normalForm_liftPoint hp, Facet.sum_entry_row hp]
  constructor
  · intro hc x y h
    let z : Fin (n + 1) → ℚ := Fin.snoc (α := fun _ => ℚ) x y
    have hzero : Configuration.normalForm z = Configuration.normalForm 0 := by
      refine LinearMap.ext_on hc.span ?_
      rintro _ ⟨i, hi, rfl⟩
      have hi := Configuration.mem_placeSet.mp hi
      rw [hform z i hi, hform 0 i hi]
      simp only [z, Fin.snoc_castSucc, Fin.snoc_last, h _ (Configuration.pointAt_mem hi)]
      simp
    have hz : z = 0 := Configuration.normalForm_injective hzero
    constructor
    · funext r
      simpa [z] using congrFun hz r.castSucc
    · simpa [z] using congrFun hz (Fin.last n)
  · intro h
    refine ⟨hlen, ?_⟩
    by_contra hspan
    obtain ⟨f, hf, hvanish⟩ := Submodule.exists_le_ker_of_lt_top _ (lt_top_iff_ne_top.mpr hspan)
    obtain ⟨z, rfl⟩ := Configuration.normalForm_surjective f
    obtain ⟨hx, hy⟩ := h (fun r => z r.castSucc) (z (Fin.last n)) fun p hp => by
      obtain ⟨i, hi, rfl⟩ := List.mem_iff_getElem.mp hp
      have hker : Configuration.normalForm z (c.vector ℚ i) = 0 :=
        hvanish (Submodule.subset_span ⟨i, Configuration.mem_placeSet.mpr hi, rfl⟩)
      rw [hform z i hi, sub_eq_zero] at hker
      rw [← hker]
      simp [c, Configuration.pointAt, hi]
    have hz : z = 0 := by
      funext r
      exact Fin.lastCases hy (fun r => congrFun hx r) r
    exact hf (by rw [hz, Configuration.normalForm_zero])

theorem affineSpan_eq_top_iff_constantForms (hlen : ∀ p ∈ points, p.length = n) :
    affineSpan ℝ (pointSet n points) = ⊤ ↔ points ≠ [] ∧ constantForms n points = ⊥ := by
  constructor
  · intro hspan
    refine ⟨ne_nil_of_affineSpan hspan, (Submodule.eq_bot_iff _).mpr fun x hx => ?_⟩
    obtain ⟨p, hp⟩ := List.exists_mem_of_ne_nil points (ne_nil_of_affineSpan hspan)
    exact ((affineSpan_eq_top_iff hlen).mp hspan x _ fun q hq => hx q hq p hp).1
  · rintro ⟨hne, hbot⟩
    obtain ⟨p, hp⟩ := List.exists_mem_of_ne_nil points hne
    refine (affineSpan_eq_top_iff hlen).mpr fun x y h => ?_
    have hx : x = 0 := (Submodule.eq_bot_iff _).mp hbot x fun p hp q hq =>
      (h p hp).trans (h q hq).symm
    refine ⟨hx, ?_⟩
    rw [← h p hp, hx]
    simp

/-! ## The rank of differences -/

theorem differences_translate {u : List ℤ} (hlen : ∀ p ∈ points, p.length = u.length) :
    differences (points.map fun p => List.zipWith (· + ·) p u) = differences points := by
  cases points with
  | nil => rfl
  | cons p points =>
    simp only [differences, List.map_cons, List.map_map]
    refine List.map_congr_left fun q hq => List.ext_getElem ?_ fun i hi hi' => ?_
    · simp [hlen p List.mem_cons_self, hlen q (List.mem_cons_of_mem _ hq)]
    · simp

theorem affineDimension_translate {u : List ℤ} (hlen : ∀ p ∈ points, p.length = u.length) :
    affineDimension (points.map fun p => List.zipWith (· + ·) p u) = affineDimension points := by
  have hdiff := differences_translate hlen
  cases points with
  | nil => rfl
  | cons p points =>
    have hp : (List.zipWith (· + ·) p u).length = p.length := by
      simp [hlen p List.mem_cons_self]
    rw [List.map_cons] at hdiff
    simp only [List.map_cons, affineDimension, hdiff, hp]

theorem hasWidth_differences (hlen : ∀ p ∈ points, p.length = n) :
    HasWidth n ((differences points).map toVec) := by
  cases points with
  | nil => exact fun _ h => absurd h List.not_mem_nil
  | cons p points =>
    simp only [HasWidth, differences, List.forall_mem_map]
    intro q hq
    simp [toVec, hlen p List.mem_cons_self, hlen q (List.mem_cons_of_mem _ hq)]

theorem entry_difference {p q : List ℤ} (hp : p.length = n) (hq : q.length = n) (r : Fin n) :
    entry (toVec (List.zipWith (fun x y => wrap (x - y)) q p)) r =
      ((wrap (q.getD r 0 - p.getD r 0) : ℤ) : ℚ) := by
  have hql : (r : ℕ) < q.length := hq.symm ▸ r.isLt
  have hpl : (r : ℕ) < p.length := hp.symm ▸ r.isLt
  rw [entry_toVec, List.getD_eq_getElem _ _ (by simp [hql, hpl]), List.getElem_zipWith,
    List.getD_eq_getElem _ _ hql, List.getD_eq_getElem _ _ hpl]

section Words

variable (hlen : ∀ p ∈ points, p.length = n)
  (hdiff : ∀ p ∈ points, ∀ q ∈ points, ∀ r, isWord (q.getD r 0 - p.getD r 0) = true)

include hlen hdiff

theorem nullSpace_differences :
    nullSpace n ((differences points).map toVec) = constantForms n points := by
  cases points with
  | nil => ext x; simp [mem_nullSpace, mem_constantForms, differences]
  | cons p points =>
    have hentry : ∀ q ∈ points, ∀ r : Fin n,
        entry (toVec (List.zipWith (fun x y => wrap (x - y)) q p)) r =
          ((q.getD r 0 : ℤ) : ℚ) - ((p.getD r 0 : ℤ) : ℚ) := by
      intro q hq r
      have hq := List.mem_cons_of_mem p hq
      rw [entry_difference (hlen p List.mem_cons_self) (hlen q hq),
        wrap_of_isWord (hdiff p List.mem_cons_self q hq r), Int.cast_sub]
    ext x
    have hmem : x ∈ nullSpace n ((differences (p :: points)).map toVec) ↔
        ∀ q ∈ p :: points, ∑ r : Fin n, ((q.getD r 0 : ℤ) : ℚ) * x r =
          ∑ r : Fin n, ((p.getD r 0 : ℤ) : ℚ) * x r := by
      simp only [mem_nullSpace, differences, List.forall_mem_map, List.forall_mem_cons, true_and]
      refine forall₂_congr fun q hq => ?_
      rw [← sub_eq_zero (b := ∑ r : Fin n, ((p.getD r 0 : ℤ) : ℚ) * x r), ← sum_sub_distrib]
      simp only [hentry q hq, sub_mul]
    rw [hmem]
    exact ⟨fun h q hq q' hq' => (h q hq).trans (h q' hq').symm,
      fun h q hq => h q hq p List.mem_cons_self⟩

theorem affineDimension_add_finrank (hne : points ≠ []) :
    affineDimension points + Module.finrank ℚ (constantForms n points) = n := by
  obtain ⟨p, rest, rfl⟩ := List.exists_cons_of_ne_nil hne
  have hrank := rank_add_length_kernel n ((differences (p :: rest)).map toVec)
  rw [← finrank_nullSpace (hasWidth_differences hlen), nullSpace_differences hlen hdiff] at hrank
  rw [affineDimension, hlen p List.mem_cons_self]
  exact_mod_cast hrank

theorem affineDimension_eq_iff :
    affineDimension points = n ↔ affineSpan ℝ (pointSet n points) = ⊤ := by
  rw [affineSpan_eq_top_iff_constantForms hlen, ← Submodule.finrank_eq_zero]
  cases points with
  | nil => simp [affineDimension]
  | cons p points =>
    have hsum := affineDimension_add_finrank hlen hdiff (List.cons_ne_nil p points)
    rw [and_iff_right (List.cons_ne_nil p points)]
    omega

theorem Polytope.isFull_iff_affineSpan :
    (ofPoints n points).isFull = true ↔ affineSpan ℝ (pointSet n points) = ⊤ := by
  rw [← affineDimension_eq_iff hlen hdiff, isFull, beq_iff_eq]
  rfl

theorem affineDimension_congr (h : ∀ p, p ∈ points' ↔ p ∈ points) :
    affineDimension points' = affineDimension points := by
  rcases eq_or_ne points [] with rfl | hne
  · rw [List.eq_nil_iff_forall_not_mem.mpr fun p hp => List.not_mem_nil ((h p).mp hp)]
  · obtain ⟨p, hp⟩ := List.exists_mem_of_ne_nil points hne
    have hsum := affineDimension_add_finrank hlen hdiff hne
    have hsum' := affineDimension_add_finrank (fun p hp => hlen p ((h p).mp hp))
      (fun p hp q hq => hdiff p ((h p).mp hp) q ((h q).mp hq))
      (List.ne_nil_of_mem ((h p).mpr hp))
    rw [constantForms_congr h] at hsum'
    omega

end Words

/-- Three points that are not on a line, with differences that wrap onto one. -/
example : affineDimension
    [[2 ^ 62, -2 ^ 62 - 1], [-2 ^ 62, 2 ^ 62 - 1], [0, 2 ^ 63 - 1]] = 1 := by decide_cbv

/-! ## Cells with an inverse -/

namespace Configuration

variable {c : Configuration}

theorem isFull_iff_exists_inverse (hlen : ∀ p ∈ c.points, p.length = c.dim) :
    c.IsFull ↔ ∃ σ ∈ c.simplices, c.inverse σ ≠ none := by
  constructor
  · intro hc
    obtain ⟨s, hI, hs⟩ := Lifting.exists_isSimplex hc.span
    have hmem := sort_mem_simplices hs hI
    obtain ⟨hp, hl, -⟩ := mem_simplices.mp hmem
    obtain ⟨inv, hinv⟩ := (inverse_eq_some_iff hl hp.nodup).mpr (by simpa using hs)
    exact ⟨s.sort, hmem, by simp [hinv]⟩
  · rintro ⟨σ, hσ, hne⟩
    obtain ⟨inv, hinv⟩ := Option.ne_none_iff_exists'.mp hne
    exact isFull_of_inverse hlen hσ hinv

/-- The rank of the differences is full when some cell has an inverse, if the differences are words.
It does not change when the points are permuted, repeated or translated. -/
theorem affineDimension_eq_iff_exists_inverse (hlen : ∀ p ∈ c.points, p.length = c.dim)
    (hdiff : ∀ p ∈ c.points, ∀ q ∈ c.points, ∀ r, isWord (q.getD r 0 - p.getD r 0) = true) :
    (affineDimension c.points = c.dim ↔ ∃ σ ∈ c.simplices, c.inverse σ ≠ none) ∧
    (∀ points', (∀ p, p ∈ points' ↔ p ∈ c.points) →
      affineDimension points' = affineDimension c.points) ∧
    ∀ u : List ℤ, u.length = c.dim →
      affineDimension (c.points.map fun p => List.zipWith (· + ·) p u) =
        affineDimension c.points := by
  refine ⟨?full, fun points' h => affineDimension_congr hlen hdiff h, ?translated⟩
  case full =>
    rw [affineDimension_eq_iff hlen hdiff, ← isFull_iff_affineSpan hlen,
      isFull_iff_exists_inverse hlen]
  case translated =>
    exact fun u hu => affineDimension_translate fun p hp => (hlen p hp).trans hu.symm

/-- A segment on a line, with one of its points twice, and a point off the line. -/
def raisedSegment : Configuration := ⟨[[1, 1], [0, 0], [2, 2], [0, 3], [1, 1]], 2, []⟩

theorem affineDimension_eq_iff_exists_inverse_raisedSegment :
    affineDimension raisedSegment.points = 2 ∧
    (∃ σ ∈ raisedSegment.simplices, raisedSegment.inverse σ ≠ none) ∧
    affineDimension [[0, 3], [2, 2], [0, 0], [1, 1]] = 2 ∧
    affineDimension [[-4, 6], [-5, 5], [-3, 7], [-5, 8], [-4, 6]] = 2 := by
  have hcoord : ∀ p ∈ raisedSegment.points, ∀ x ∈ p, 0 ≤ x ∧ isWord x = true := by decide
  obtain ⟨hfull, hset, htranslated⟩ := affineDimension_eq_iff_exists_inverse
    (c := raisedSegment) (by decide) fun p hp q hq => isWord_getD_sub (hcoord p hp) (hcoord q hq)
  have hcell : ∃ σ ∈ raisedSegment.simplices, raisedSegment.inverse σ ≠ none :=
    ⟨[0, 1, 3], by decide, by decide_cbv⟩
  have hdim := hfull.mpr hcell
  have hmove : raisedSegment.points.map (fun p => List.zipWith (· + ·) p [-5, 5]) =
      [[-4, 6], [-5, 5], [-3, 7], [-5, 8], [-4, 6]] := by decide
  have hmem : ∀ p ∈ [[0, 3], [2, 2], [0, 0], [1, 1]], p ∈ raisedSegment.points := by decide
  have hmem' : ∀ p ∈ raisedSegment.points, p ∈ [[0, 3], [2, 2], [0, 0], [1, 1]] := by decide
  refine ⟨hdim, hcell, (hset _ fun p => ⟨hmem p, hmem' p⟩).trans hdim, ?_⟩
  rw [← hmove]
  exact (htranslated [-5, 5] rfl).trans hdim

end Configuration

end Orthant
