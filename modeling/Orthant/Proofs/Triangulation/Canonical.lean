import Mathlib
import Orthant.Proofs.Triangulation.Barycentric
import Orthant.Proofs.Triangulation.Lineality

/-! # Canonical forms

A form weights the points to zero, and up to a factor only one set of weights on the vertices around
a ridge does. So the two cells of a ridge have the same form, found through different inverses, if
they lie on its two sides. The forms of a triangulation do not depend on which of the two is taken,
and each ray holds one of them at most.
-/

namespace Orthant

open Finset Lifting

namespace Configuration

variable {c : Configuration} {σ τ : Cell} {t : Triangulation} {a b j : ℕ} {g : Vec}

/-! ## Dependences -/

/-- Weights of the points that sum to 0 and weight them to 0. -/
structure IsDependence (c : Configuration) (g : Vec) : Prop where
  length : g.length = c.size
  sum : g.sum = 0
  point : ∀ r < c.dim, dot g (c.points.map fun p => ((p.getD r 0 : ℤ) : ℚ)) = 0

theorem isDependence_of_sum (hl : g.length = c.size)
    (h : ∑ i ∈ c.placeSet, entry g i • c.vector ℚ i = 0) : c.IsDependence g := by
  have hat : ∀ r, ∑ i ∈ c.placeSet, entry g i * c.vector ℚ i r = 0 := fun r => by
    simpa [Finset.sum_apply] using congrFun h r
  refine ⟨hl, ?_, fun r hr => ?_⟩
  · rw [← dot_replicate_one rfl, dot_eq_sum_of_le (by simp [hl] : _ ≤ c.size), ← hat (Fin.last _)]
    refine sum_congr rfl fun i hi => ?_
    have hi := mem_range.mp hi
    simp [entry, vector, liftPoint, hl, hi]
  · rw [dot_eq_sum_placeSet hl, ← hat (Fin.castSucc ⟨r, hr⟩)]
    refine sum_congr rfl fun i hi => ?_
    have hi : i < c.points.length := mem_placeSet.mp hi
    simp [entry, vector, liftPoint, pointAt, hi, hr]

/-! ## Simplices in any order -/

theorem form_congr (hc : c.IsFull) (hσ : σ.length = c.dim + 1) (hτ : τ.length = c.dim + 1)
    {inv inv' : List Vec} (h : c.inverse σ = some inv) (h' : c.inverse τ = some inv')
    (he : σ.toFinset = τ.toFinset) (hj : j < c.size) : c.form σ j = c.form τ j := by
  have hraw : c.rawForm (σ.map fun i => coord (c.vector ℚ) σ.toFinset i (c.vector ℚ j)) σ j =
      c.rawForm (τ.map fun i => coord (c.vector ℚ) τ.toFinset i (c.vector ℚ j)) τ j := by
    rw [rawForm_map (nodup_of_inverse hσ h), rawForm_map (nodup_of_inverse hτ h'), he]
    simp only [← List.mem_toFinset, he]
  rw [form, form, barycentric_of_inverse hc hσ h hj, barycentric_of_inverse hc hτ h' hj]
  simp only [bind, Except.bind, hraw]

theorem exists_isFold_of_inverse (hlen : ∀ p ∈ c.points, p.length = c.dim) (σ : c.Proposed)
    {inv : List Vec} (h : c.inverse σ.1 = some inv) : c.IsFull ∧
      ∃ σ' : Cell, σ'.toFinset = σ.1.toFinset ∧
        ∀ j < c.size, j ∉ σ.1 → c.IsFold σ' j ∧ c.form σ' j = c.form σ.1 j := by
  obtain ⟨σ, hσ, hlt⟩ := σ
  have hs := isSimplex_of_inverse hσ h
  have hfin : σ.toFinset.sort.toFinset = σ.toFinset := by simp
  have hmem : σ.toFinset.sort ∈ c.simplices := sort_mem_simplices hs fun i hi =>
    mem_placeSet.mpr (hlt i (List.mem_toFinset.mp hi))
  obtain ⟨hp, hl, -⟩ := mem_simplices.mp hmem
  obtain ⟨inv', hinv⟩ := (inverse_eq_some_iff hl hp.nodup).mpr (hfin.symm ▸ hs)
  have hc := isFull_of_inverse hlen hmem hinv
  refine ⟨hc, σ.toFinset.sort, hfin, fun j hj hjσ => ⟨⟨hmem, hfin.symm ▸ hs, hj, ?_⟩, ?_⟩⟩
  · simpa using hjσ
  · exact form_congr hc hl hσ hinv h hfin hj

/-! ## The two sides of a ridge -/

theorem form_eq_of_coord_neg (hc : c.IsFull) (h : c.IsFold σ b) (h' : c.IsFold τ a) (ha : a ∈ σ)
    (he : τ.toFinset = insert b (σ.toFinset.erase a))
    (hneg : coord (K := ℚ) (c.vector ℚ) σ.toFinset a (c.vector ℚ b) < 0) :
    c.form σ b = c.form τ a := by
  obtain ⟨g, hg, hl, hn, s, hs, hgs⟩ := form_eq_ok hc h
  obtain ⟨g', hg', hl', hn', s', hs', hgs'⟩ := form_eq_ok hc h'
  have hexchange := h.simplex.form_exchange (List.mem_toFinset.mpr ha) (he ▸ h'.simplex)
  rw [hg, hg', hn'.eq_of_smul hn (hl.trans hl'.symm)
    (s := s * -coord (c.vector ℚ) σ.toFinset a (c.vector ℚ b) / s')
    (div_pos (mul_pos hs (neg_pos.mpr hneg)) hs')]
  rw [hgs, hgs', hexchange, ← he, smul_smul, smul_smul, div_mul_cancel₀ _ hs'.ne']

/-- Two cells share all vertices but one of each, and some affine function vanishes at the common
ones and has opposite signs at the others. -/
structure AreOpposite (c : Configuration) (σ τ : Cell) (a b : ℕ) : Prop where
  mem_left : a ∈ σ
  mem_right : b ∈ τ
  ridge : ∀ i, (i ∈ σ ∧ i ≠ a) ↔ (i ∈ τ ∧ i ≠ b)
  sides : ∃ u v, (∀ i ∈ σ, i ≠ a → c.affineAt u v i = 0) ∧ 0 < c.affineAt u v a ∧
    c.affineAt u v b < 0

namespace AreOpposite

variable (h : c.AreOpposite σ τ a b)

include h

theorem ne : a ≠ b := by
  obtain ⟨u, v, -, ha, hb⟩ := h.sides
  rintro rfl
  exact lt_asymm ha hb

theorem notMem_left : b ∉ σ := fun hb => ((h.ridge b).mp ⟨hb, h.ne.symm⟩).2 rfl

theorem notMem_right : a ∉ τ := fun ha => ((h.ridge a).mpr ⟨ha, h.ne⟩).2 rfl

theorem toFinset_eq : τ.toFinset = insert b (σ.toFinset.erase a) := by
  ext i
  have := h.ridge i
  rcases eq_or_ne i b with rfl | hib
  · simp [h.mem_right]
  · simp only [List.mem_toFinset, mem_insert, mem_erase]
    tauto

theorem coord_neg (hc : c.IsFull) {s : Finset ℕ} (hs : IsSimplex ℚ (c.vector ℚ) s)
    (hI : s ⊆ c.placeSet) (hσ : s = σ.toFinset) (hb : b < c.size) :
    coord (K := ℚ) (c.vector ℚ) s a (c.vector ℚ b) < 0 := by
  obtain ⟨u, v, hzero, hpos, hneg⟩ := h.sides
  have ha : a ∈ s := hσ ▸ List.mem_toFinset.mpr h.mem_left
  have hmul := hs.eq_smul_coord (f := c.affineForm u v) (k := a) (fun i hi hia => by
    rw [affineForm_vector hc u v (mem_placeSet.mp (hI hi))]
    exact hzero i (List.mem_toFinset.mp (hσ ▸ hi)) hia) (c.vector ℚ b) ha
  rw [affineForm_vector hc u v hb, affineForm_vector hc u v (mem_placeSet.mp (hI ha))] at hmul
  exact neg_of_mul_neg_right (hmul ▸ hneg) hpos.le

end AreOpposite

/-! ## Taking the other side -/

def turnRidge (turn : Ridge → Bool) (r : Ridge) : Ridge :=
  if turn r then (r.1, r.2.reverse) else r

/-- The forms of a triangulation, taken from the other side of some ridges. -/
def wallsTurned (c : Configuration) (turn : Ridge → Bool) (t : Triangulation) :
    Except Error (List Vec) := do
  let forms ← (t.ridges.map (turnRidge turn)).foldlM c.addRidge []
  (List.range c.size).foldlM (c.addUnused t) forms

theorem IsGeometric.form_eq (hc : c.IsFull) (ht : c.IsComplex t) (hg : c.IsGeometric t)
    {ρ : Cell} (hr : (ρ, [(σ, a), (τ, b)]) ∈ t.ridges) : c.form σ b = c.form τ a := by
  obtain ⟨⟨hσ, ha⟩, ⟨hτ, hb⟩, hbσ, he⟩ := ht.pair_of_mem_ridges hr
  have hab : a ≠ b := fun h => hbσ (List.mem_toFinset.mpr (h ▸ ha))
  have hfold : c.IsFold σ b := ⟨ht.mem σ hσ, hg.isSimplex ht hσ,
    (mem_simplices.mp (ht.mem τ hτ)).2.2 b hb, by simpa using hbσ⟩
  have hfold' : c.IsFold τ a := ⟨ht.mem τ hτ, hg.isSimplex ht hτ,
    (mem_simplices.mp (ht.mem σ hσ)).2.2 a ha, by
      rw [← List.mem_toFinset, he]
      simp [hab]⟩
  exact form_eq_of_coord_neg hc hfold hfold' ha he
    (hg.coord_neg ht hσ hτ (List.mem_toFinset.mpr ha) hbσ he)

theorem addRidge_of_length_ne {forms : List Vec} {r : Ridge} (h : r.2.length ≠ 2) :
    c.addRidge forms r = .ok forms := by
  rw [addRidge]
  split
  case h_1 heq => simp [heq] at h
  case h_2 => rfl

theorem addRidge_turnRidge (hc : c.IsFull) (ht : c.IsComplex t) (hg : c.IsGeometric t)
    (turn : Ridge → Bool) (forms : List Vec) {r : Ridge} (hr : r ∈ t.ridges) :
    c.addRidge forms (turnRidge turn r) = c.addRidge forms r := by
  rw [turnRidge]
  split
  · obtain ⟨ρ, ss⟩ := r
    by_cases htwo : ss.length = 2
    · obtain ⟨⟨σ, a⟩, ⟨τ, b⟩, rfl⟩ := List.length_eq_two.mp htwo
      simp [addRidge, hg.form_eq hc ht hr]
    · rw [addRidge_of_length_ne (by simpa using htwo), addRidge_of_length_ne htwo]
  · rfl

theorem wallsTurned_eq (hc : c.IsFull) (ht : c.IsComplex t) (hg : c.IsGeometric t)
    (turn : Ridge → Bool) : c.wallsTurned turn t = c.walls t := by
  rw [wallsTurned, walls, List.foldlM_map,
    foldlM_congr fun forms r hr => addRidge_turnRidge hc ht hg turn forms hr]

/-- The form of a simplex and a point outside is an affine dependence in normal shape, a positive
multiple of the height above the simplex. Simplices on the two sides of a common ridge have one
form. So the forms of a triangulation do not depend on the side that is taken at each ridge, and no
two of them lie on one ray. -/
theorem form_canonical (hlen : ∀ p ∈ c.points, p.length = c.dim) :
    (∀ (σ : c.Proposed) (inv : List Vec), c.inverse σ.1 = some inv → ∀ j < c.size, j ∉ σ.1 →
      ∃ g, c.form σ.1 j = .ok g ∧ c.IsDependence g ∧ IsNormal g ∧
        ∃ s : ℚ, 0 < s ∧ ∀ w : Vec, dot g w = s * c.heightBy inv σ.1 j w) ∧
    (∀ (σ τ : c.Proposed) (a b : ℕ), c.inverse σ.1 ≠ none → c.inverse τ.1 ≠ none →
      c.AreOpposite σ.1 τ.1 a b → ∃ g, c.form σ.1 b = .ok g ∧ c.form τ.1 a = .ok g) ∧
    ∀ t, c.IsComplex t → c.IsGeometric t → ∃ forms, c.walls t = .ok forms ∧
      (∀ turn, c.wallsTurned turn t = .ok forms) ∧ forms.Nodup ∧
      ∀ g ∈ forms, ∀ g' ∈ forms, ∀ s : ℚ, 0 < s → g' = scaleVec s g → g' = g := by
  refine ⟨?dependence, ?opposite, ?walls⟩
  case dependence =>
    intro σ inv h j hj hjσ
    obtain ⟨hc, σ', hfin, hform⟩ := exists_isFold_of_inverse hlen σ h
    obtain ⟨hfold, heq⟩ := hform j hj hjσ
    obtain ⟨g, hg, hl, hn, -⟩ := form_eq_ok hc hfold
    obtain ⟨s, hs, hheight⟩ := sum_form_eq hc hfold hg
    refine ⟨g, heq ▸ hg, isDependence_of_sum hl (sum_form_vector hc hfold hg), hn, s, hs,
      fun w => ?_⟩
    rw [dot_eq_sum_placeSet hl, hheight, heightBy_eq σ.2.1 hc h hj, hfin]
  case opposite =>
    intro σ τ a b hσ hτ hopp
    obtain ⟨inv, hinv⟩ := Option.ne_none_iff_exists'.mp hσ
    obtain ⟨inv', hinv'⟩ := Option.ne_none_iff_exists'.mp hτ
    obtain ⟨hc, σ', hfin, hform⟩ := exists_isFold_of_inverse hlen σ hinv
    obtain ⟨-, τ', hfin', hform'⟩ := exists_isFold_of_inverse hlen τ hinv'
    have hb := τ.2.2 b hopp.mem_right
    obtain ⟨hfold, heq⟩ := hform b hb hopp.notMem_left
    obtain ⟨hfold', heq'⟩ := hform' a (σ.2.2 a hopp.mem_left) hopp.notMem_right
    have hneg := hopp.coord_neg hc hfold.simplex (toFinset_subset hfold.mem) hfin hb
    obtain ⟨g, hg, -⟩ := form_eq_ok hc hfold
    have hsame := form_eq_of_coord_neg hc hfold hfold'
      (by rw [← List.mem_toFinset, hfin]; simpa using hopp.mem_left)
      (by rw [hfin', hfin, hopp.toFinset_eq]) hneg
    exact ⟨g, heq ▸ hg, heq' ▸ hsame ▸ hg⟩
  case walls =>
    intro t ht hgeo
    have hc := hgeo.isFull ht hlen
    obtain ⟨forms, hforms, hw⟩ := walls_eq_ok hc (hgeo.isCover ht)
    refine ⟨forms, hforms, fun turn => (wallsTurned_eq hc ht hgeo turn).trans hforms, hw.nodup,
      fun g hg g' hg' s hs he => ?_⟩
    obtain ⟨σ, -, j, hfold, hok⟩ := hw.fold g hg
    obtain ⟨σ', -, j', hfold', hok'⟩ := hw.fold g' hg'
    obtain ⟨hl, hn, -⟩ := form_spec hc hfold hok
    obtain ⟨hl', hn', -⟩ := form_spec hc hfold' hok'
    exact hn.eq_of_smul hn' (hl'.trans hl.symm) hs (he ▸ funext fun i => entry_scaleVec s g i)

theorem form_canonical_square :
    square.inverse [2, 0, 1] ≠ none ∧ square.inverse [3, 2, 1] ≠ none ∧
    square.form [2, 0, 1] 3 = .ok [1, -1, -1, 1, 0] ∧ square.IsDependence [1, -1, -1, 1, 0] ∧
    square.AreOpposite [2, 0, 1] [3, 2, 1] 0 3 ∧
    square.form [3, 2, 1] 0 = .ok [1, -1, -1, 1, 0] ∧
    ∃ forms, square.walls [[0, 1, 2], [1, 2, 3]] = .ok forms ∧
      square.wallsTurned (fun _ => true) [[0, 1, 2], [1, 2, 3]] = .ok forms := by
  obtain ⟨hform, hopposite, hwalls⟩ := form_canonical (c := square) (by decide)
  have hleft : square.inverse [2, 0, 1] ≠ none := by decide_cbv
  have hright : square.inverse [3, 2, 1] ≠ none := by decide_cbv
  have hvalue : square.form [2, 0, 1] 3 = .ok [1, -1, -1, 1, 0] := by decide_cbv
  have hopp : square.AreOpposite [2, 0, 1] [3, 2, 1] 0 3 :=
    ⟨by decide, by decide, fun i => by simp; omega, [-1, -1], 1, by decide_cbv,
      by decide_cbv, by decide_cbv⟩
  obtain ⟨inv, hinv⟩ := Option.ne_none_iff_exists'.mp hleft
  obtain ⟨g, hg, hdep, -⟩ := hform ⟨[2, 0, 1], by decide⟩ inv hinv 3 (by decide) (by decide)
  obtain ⟨g', hg', hsame⟩ := hopposite ⟨[2, 0, 1], by decide⟩ ⟨[3, 2, 1], by decide⟩ 0 3 hleft
    hright hopp
  obtain ⟨ht, hgeo⟩ := isGeometric_square
  obtain ⟨forms, hforms, hturned, -⟩ := hwalls _ ht hgeo
  obtain rfl := Except.ok.inj (hvalue.symm.trans hg)
  obtain rfl := Except.ok.inj (hvalue.symm.trans hg')
  exact ⟨hleft, hright, hvalue, hdep, hopp, hsame, forms, hforms, hturned _⟩

end Configuration

end Orthant
