import Mathlib
import Orthant.Proofs.Lifting.Fold
import Orthant.Proofs.Triangulation.Regular
import Orthant.Triangulation.Enumeration

/-! # Proposed cells that pass the check

Cells that lie strictly below all other points, with every ridge shared or on a facet, are all lower
simplices. So whatever is proposed, what the check accepts is the subdivision.
-/

namespace Orthant

open Finset Lifting

namespace Configuration

variable {c : Configuration} {σ τ : Cell} {t : Triangulation} {w : Vec}

/-! ## Ridges -/

theorem toFinset_ridgeOf (σ : Cell) (k : ℕ) :
    (Cells.ridgeOf (σ, k)).toFinset = σ.toFinset.erase k := by
  ext i
  simp [Cells.mem_ridgeOf, and_comm]

theorem exchange_of_ridgeOf_eq (hσ : σ ∈ c.simplices) (hτ : τ ∈ c.simplices) {k b : ℕ}
    (hk : k ∈ σ) (hb : b ∈ τ) (h : Cells.ridgeOf (τ, b) = Cells.ridgeOf (σ, k))
    (hne : (τ, b) ≠ (σ, k)) : b ∉ σ.toFinset ∧ τ.toFinset = insert b (σ.toFinset.erase k) := by
  have hfin : τ.toFinset.erase b = σ.toFinset.erase k := by
    rw [← toFinset_ridgeOf, h, toFinset_ridgeOf]
  have hτ' : τ.toFinset = insert b (σ.toFinset.erase k) := by
    rw [← hfin, insert_erase (List.mem_toFinset.mpr hb)]
  refine ⟨fun hbσ => hne ?_, hτ'⟩
  have hbk : b = k := by
    by_contra hbk
    have : b ∈ τ.toFinset.erase b := hfin ▸ mem_erase.mpr ⟨hbk, hbσ⟩
    exact notMem_erase b _ this
  subst hbk
  rw [insert_erase (List.mem_toFinset.mpr hk)] at hτ'
  rw [eq_of_toFinset_eq hτ hσ hτ']

theorem ridgeOf_eq_of_exchange (hσ : σ ∈ c.simplices) (hτ : τ ∈ c.simplices) {k b : ℕ}
    (hb : b ∉ σ.toFinset) (h : τ.toFinset = insert b (σ.toFinset.erase k)) :
    Cells.ridgeOf (τ, b) = Cells.ridgeOf (σ, k) := by
  have hbe : b ∉ σ.toFinset.erase k := fun h => hb (mem_of_mem_erase h)
  refine List.Pairwise.eq_of_mem_iff (r := (· < ·)) ((mem_simplices.mp hτ).1.filter _)
    ((mem_simplices.mp hσ).1.filter _) fun i => ?_
  rw [← List.mem_toFinset, ← List.mem_toFinset, toFinset_ridgeOf, toFinset_ridgeOf, h,
    erase_insert hbe]

theorem IsComplex.nodup_sides (ht : c.IsComplex t) : (Cells.sides t).Nodup :=
  Cells.nodup_sides ht.pairwise.nodup fun σ hσ => (mem_simplices.mp (ht.mem σ hσ)).1.nodup

section Sides

variable {ρ : Cell} {ss : List (Cell × ℕ)} (hr : (ρ, ss) ∈ t.ridges) {s s' : Cell × ℕ}

include hr

theorem side_of_mem_ridges (hs : s ∈ ss) : s.1 ∈ t ∧ s.2 ∈ s.1 ∧ Cells.ridgeOf s = ρ := by
  rw [(Cells.mem_ridges.mp hr).1] at hs
  obtain ⟨hs, he⟩ := List.mem_filter.mp hs
  exact ⟨(Cells.mem_sides.mp hs).1, (Cells.mem_sides.mp hs).2, of_decide_eq_true he⟩

theorem IsComplex.nodup_of_mem_ridges (ht : c.IsComplex t) : ss.Nodup :=
  (Cells.mem_ridges.mp hr).1 ▸ ht.nodup_sides.filter _

theorem IsComplex.exchange_of_mem_ridges (ht : c.IsComplex t) (hs : s ∈ ss) (hs' : s' ∈ ss)
    (hne : s' ≠ s) : s'.2 ∉ s.1.toFinset ∧
      s'.1.toFinset = insert s'.2 (s.1.toFinset.erase s.2) := by
  obtain ⟨hσ, hk, hρ⟩ := side_of_mem_ridges hr hs
  obtain ⟨hτ, hb, hρ'⟩ := side_of_mem_ridges hr hs'
  exact exchange_of_ridgeOf_eq (ht.mem _ hσ) (ht.mem _ hτ) hk hb (hρ'.trans hρ.symm) hne

end Sides

theorem IsComplex.pair_of_mem_ridges (ht : c.IsComplex t) {ρ : Cell} {k b : ℕ}
    (hr : (ρ, [(σ, k), (τ, b)]) ∈ t.ridges) : (σ ∈ t ∧ k ∈ σ) ∧ (τ ∈ t ∧ b ∈ τ) ∧
      b ∉ σ.toFinset ∧ τ.toFinset = insert b (σ.toFinset.erase k) := by
  have hne : (τ, b) ≠ (σ, k) := fun he => by simpa [he] using ht.nodup_of_mem_ridges hr
  obtain ⟨hσ, hk, -⟩ := side_of_mem_ridges hr (s := (σ, k)) (by simp)
  obtain ⟨hτ, hb, -⟩ := side_of_mem_ridges hr (s := (τ, b)) (by simp)
  exact ⟨⟨hσ, hk⟩, ⟨hτ, hb⟩, ht.exchange_of_mem_ridges hr (s := (σ, k)) (by simp) (by simp) hne⟩

/-! ## Facets -/

/-- The facets are inequalities that hold at all points. -/
def Supported (c : Configuration) : Prop := ∀ f ∈ c.facets, f.Supports c.dim c.points

/-- The points lie on one side of each facet, on which side it may be. -/
def OneSided (c : Configuration) : Prop :=
  ∀ f ∈ c.facets, f.Supports c.dim c.points ∨ f.neg.Supports c.dim c.points

theorem Supported.oneSided (h : c.Supported) : c.OneSided := fun f hf => .inl (h f hf)

theorem IsFull.form_vector (hc : c.IsFull) (f : Facet) (K : Type*) [Field K] {i : ℕ}
    (hi : i < c.size) : f.form c.dim K (c.vector K i) =
      ((f.offset - dotInt f.normal (c.pointAt i) : ℤ) : K) :=
  Facet.form_liftPoint K (hc.length_pointAt hi)

theorem pointAt_mem {i : ℕ} (hi : i < c.size) : c.pointAt i ∈ c.points := by
  rw [pointAt, List.getD_eq_getElem _ _ hi]
  exact List.getElem_mem hi

/-- A facet through all vertices of a simplex but one is a multiple of the coordinate there. -/
theorem exists_form_eq_mul_coord {K : Type} [Field K] [LinearOrder K] [IsStrictOrderedRing K]
    (hc : c.IsFull) {f : Facet} (hf : f.Supports c.dim c.points) {s : Finset ℕ}
    (hs : IsSimplex K (c.vector K) s) (hI : s ⊆ c.placeSet) {k : ℕ} (hk : k ∈ s)
    (hzero : ∀ i ∈ s, i ≠ k → dotInt f.normal (c.pointAt i) = f.offset) :
    ∃ t : K, 0 < t ∧ ∀ x, f.form c.dim K x = t * coord (c.vector K) s k x := by
  have hvanish : ∀ i ∈ s, i ≠ k → f.form c.dim K (c.vector K i) = 0 := fun i hi hik => by
    rw [hc.form_vector f K (mem_placeSet.mp (hI hi)), hzero i hi hik, sub_self, Int.cast_zero]
  have hmul := fun x => hs.eq_smul_coord hvanish x hk
  refine ⟨_, lt_of_le_of_ne ?_ fun h0 => hf.ne_zero K (LinearMap.ext fun x => ?_), hmul⟩
  · have hk := mem_placeSet.mp (hI hk)
    rw [hc.form_vector f K hk]
    exact Int.cast_nonneg (sub_nonneg.mpr (hf.le _ (pointAt_mem hk)))
  · rw [hmul x, ← h0, zero_mul, LinearMap.zero_apply]

theorem coord_nonneg_of_onHull (hc : c.IsFull) (hf : c.OneSided)
    (hs : IsSimplex ℚ (c.vector ℚ) σ.toFinset) (hσ : σ ∈ c.simplices) {k : ℕ} (hk : k ∈ σ)
    (h : c.onHull (Cells.ridgeOf (σ, k)) = true) :
    ∀ j ∈ c.placeSet, 0 ≤ coord (K := ℚ) (c.vector ℚ) σ.toFinset k (c.vector ℚ j) := by
  obtain ⟨f, hfm, hzero⟩ := List.any_eq_true.mp h
  have hvanish : ∀ i ∈ σ.toFinset, i ≠ k → dotInt f.normal (c.pointAt i) = f.offset := by
    intro i hi hik
    exact beq_iff_eq.mp (List.all_eq_true.mp hzero i
      (Cells.mem_ridgeOf.mpr ⟨List.mem_toFinset.mp hi, hik⟩))
  obtain ⟨g, hg, hvanish⟩ : ∃ g : Facet, g.Supports c.dim c.points ∧
      ∀ i ∈ σ.toFinset, i ≠ k → dotInt g.normal (c.pointAt i) = g.offset := by
    rcases hf f hfm with hsup | hsup
    · exact ⟨f, hsup, hvanish⟩
    · refine ⟨f.neg, hsup, fun i hi hik => ?_⟩
      rw [Facet.neg, dotInt_neg, hvanish i hi hik]
  obtain ⟨t, ht, hmul⟩ := exists_form_eq_mul_coord hc hg hs (toFinset_subset hσ)
    (List.mem_toFinset.mpr hk) hvanish
  intro j hj
  have hj := mem_placeSet.mp hj
  refine nonneg_of_mul_nonneg_right ?_ ht
  rw [← hmul, hc.form_vector g ℚ hj]
  exact Int.cast_nonneg (sub_nonneg.mpr (hg.le _ (pointAt_mem hj)))

/-! ## The check -/

theorem mem_proposedCells {σs : List c.Proposed} (h : σ ∈ c.proposedCells σs) :
    σ.Pairwise (· ≤ ·) ∧ σ.length = c.dim + 1 ∧ ∀ i ∈ σ, i < c.size := by
  obtain ⟨⟨υ, hl, hlt⟩, -, rfl⟩ := List.mem_map.mp (Cells.mem_ofList.mp h)
  refine ⟨?_, by simpa using hl, fun i hi => hlt i (by simpa using hi)⟩
  exact (List.pairwise_mergeSort (by simpa using fun a b c => le_trans)
    (by simpa using Nat.le_total) υ).imp (by simp)

theorem checkCells_eq_some {cells : Triangulation} (h : c.checkCells w cells = some t) :
    t = cells ∧ cells ≠ [] ∧
      (∀ σ ∈ cells, ∃ hs, c.heightsAbove w σ = some hs ∧ ∀ x ∈ hs, 0 < x) ∧
      ∀ r ∈ Triangulation.ridges cells, r.2.length = 1 → c.onHull r.1 = true := by
  rw [checkCells] at h
  split at h
  · cases h
  split at h
  · cases h
  split at h
  · cases h
  case isFalse hne hpos hridge =>
    cases h
    refine ⟨rfl, by simpa using hne, fun σ hσ => ?_, fun r hr hl => ?_⟩
    · cases heq : c.heightsAbove w σ with
      | none => exact absurd (List.any_eq_true.mpr ⟨σ, hσ, by simp [heq]⟩) hpos
      | some hs =>
        refine ⟨hs, rfl, fun x hx => not_le.mp fun hle => hpos (List.any_eq_true.mpr ⟨σ, hσ, ?_⟩)⟩
        simpa [heq] using ⟨x, hx, hle⟩
    · by_contra hon
      exact hridge (List.any_eq_true.mpr ⟨r, hr, by simp [hl, hon]⟩)

section Accepted

variable {cells : Triangulation} (hc : c.IsFull)
  (hcells : ∀ σ ∈ cells, σ.Pairwise (· ≤ ·) ∧ σ.length = c.dim + 1 ∧ ∀ i ∈ σ, i < c.size)
  (hpos : ∀ σ ∈ cells, ∃ hs, c.heightsAbove w σ = some hs ∧ ∀ x ∈ hs, 0 < x)

include hc hcells hpos

theorem isStrict_of_check (hσ : σ ∈ cells) : σ ∈ c.simplices ∧
    IsStrict (c.vector ℚ) c.placeSet (entry w) σ.toFinset := by
  obtain ⟨hle, hl, hlt⟩ := hcells σ hσ
  obtain ⟨hs, heq, h0⟩ := hpos σ hσ
  obtain ⟨hnd, hsim, hmem⟩ := heightsAbove_eq_some hc hl heq
  have hσs : σ ∈ c.simplices :=
    mem_simplices.mpr ⟨hle.imp₂ (fun _ _ h h' => lt_of_le_of_ne h h') hnd, hl, hlt⟩
  exact ⟨hσs, (isStrict_iff_heights (toFinset_subset hσs) hsim hmem).mpr h0⟩

theorem induces_of_check (hf : c.OneSided) (hp : cells.Pairwise (· < ·)) (hne : cells ≠ [])
    (hridge : ∀ r ∈ Triangulation.ridges cells, r.2.length = 1 → c.onHull r.1 = true) :
    Induces (c.vector ℚ) c.placeSet (entry w) (Triangulation.cells cells) := by
  have hstr := fun σ hσ => isStrict_of_check (σ := σ) hc hcells hpos hσ
  have hcomplex : c.IsComplex cells := ⟨hp, fun σ hσ => (hstr σ hσ).1⟩
  refine induces_of_ridges ?_ ?_ ?_ ?_
  · refine (cells.finite_toSet.image List.toFinset).subset ?_
    rintro _ ⟨σ, hσ, rfl⟩
    exact ⟨σ, hσ, rfl⟩
  · obtain ⟨σ, hσ⟩ := List.exists_mem_of_ne_nil _ hne
    exact ⟨_, σ, hσ, rfl⟩
  · rintro _ ⟨σ, hσ, rfl⟩
    exact (hstr σ hσ).2
  · rintro _ ⟨σ, hσ, rfl⟩ k hk
    have hkσ := List.mem_toFinset.mp hk
    let ss := (Cells.sides cells).filter fun s => decide (Cells.ridgeOf s = Cells.ridgeOf (σ, k))
    have hside : (σ, k) ∈ ss :=
      List.mem_filter.mpr ⟨Cells.mem_sides.mpr ⟨hσ, hkσ⟩, by simp⟩
    have hr : (Cells.ridgeOf (σ, k), ss) ∈ Triangulation.ridges cells :=
      Cells.mem_ridges.mpr ⟨rfl, List.ne_nil_of_mem hside⟩
    by_cases hone : ss.length = 1
    · exact Or.inr (coord_nonneg_of_onHull hc hf (hstr σ hσ).2.simplex (hstr σ hσ).1 hkσ
        (hridge _ hr hone))
    · obtain ⟨⟨τ, b⟩, hs', hne'⟩ : ∃ s ∈ ss, s ≠ (σ, k) := by
        by_contra hall
        push Not at hall
        have hrep := List.eq_replicate_of_mem hall
        have hnd : ss.Nodup := hcomplex.nodup_sides.filter _
        rw [hrep, List.nodup_replicate] at hnd
        have := List.length_pos_of_mem hside
        omega
      obtain ⟨hs', heq⟩ := List.mem_filter.mp hs'
      obtain ⟨hτ, hb⟩ := Cells.mem_sides.mp hs'
      obtain ⟨hbσ, hτ'⟩ := exchange_of_ridgeOf_eq (hstr σ hσ).1 (hstr τ hτ).1 hkσ hb
        (of_decide_eq_true heq) hne'
      exact Or.inl ⟨b, hbσ, τ, hτ, hτ'⟩

end Accepted

theorem subdivision_of_lowerHull (hc : c.IsFull) (hf : c.OneSided) {hull : HullProgram}
    (h : c.lowerHull w hull = some t) : c.subdivision w = some t := by
  rw [lowerHull] at h
  split at h
  case isFalse => cases h
  obtain ⟨rfl, hne, hpos, hridge⟩ := checkCells_eq_some h
  have hcells := fun σ (hσ : σ ∈ c.proposedCells (hull c w)) => mem_proposedCells hσ
  refine (subdivision_eq_some_iff hc).mpr ⟨⟨Cells.pairwise_ofList, fun σ hσ => ?_⟩, ?_⟩
  · exact (isStrict_of_check hc hcells hpos hσ).1
  · exact induces_of_check hc hcells hpos hf Cells.pairwise_ofList hne hridge

theorem mem_proposeCells (hc : c.IsFull) (hsize : c.dim + 2 ≤ c.size) {s : Finset ℕ}
    (hs : IsLower (c.vector ℚ) c.placeSet (entry w) s) :
    s.sort ∈ c.proposedCells (proposeCells c w) := by
  have hσ := sort_mem_simplices hs.simplex hs.subset
  obtain ⟨hp, hl, hlt⟩ := mem_simplices.mp hσ
  have hfin : s.sort.toFinset = s := sort_toFinset ..
  refine Cells.mem_ofList.mpr (List.mem_map.mpr ⟨⟨s.sort, hl, hlt⟩, ?_, ?_⟩)
  · rw [proposeCells, if_neg (by omega)]
    refine List.mem_filterMap.mpr ⟨s.sort, hσ, ?_⟩
    rw [dif_pos ⟨hl, hlt⟩]
    cases hh : c.heightsAbove w s.sort with
    | none => exact absurd (hfin.symm ▸ hs.simplex) (heightsAbove_eq_none hσ hh)
    | some hs' =>
      obtain ⟨-, hsim, hmem⟩ := heightsAbove_eq_some hc hl hh
      have hnn := (isLower_iff_heights (toFinset_subset hσ) hsim hmem).mp (hfin.symm ▸ hs)
      exact if_pos (by simpa using hnn)
  · exact List.mergeSort_of_pairwise (hp.imp fun h => decide_eq_true h.le)

theorem subdivision_of_lowerHull_exact (hc : c.IsFull) (h : c.lowerHull w = some t) :
    c.subdivision w = some t := by
  rw [lowerHull] at h
  split at h
  case isFalse => cases h
  obtain ⟨rfl, hne, hpos, -⟩ := checkCells_eq_some h
  have hstr := fun σ hσ => isStrict_of_check (σ := σ) hc (fun σ hσ => mem_proposedCells hσ) hpos hσ
  have hsize : c.dim + 2 ≤ c.size := by
    by_contra hlt
    refine hne ?_
    rw [proposeCells, if_pos (by omega)]
    rfl
  refine (subdivision_eq_some_iff hc).mpr ⟨⟨Cells.pairwise_ofList, fun σ hσ => (hstr σ hσ).1⟩,
    fun s hs => ⟨_, mem_proposeCells hc hsize hs, sort_toFinset ..⟩, ?_⟩
  rintro _ ⟨σ, hσ, rfl⟩
  exact (hstr σ hσ).2

/-! ## The first triangulation -/

theorem IsFull.isRegular_of_subdivision (hc : c.IsFull) (h : c.subdivision w = some t) :
    c.IsRegular t := by
  obtain ⟨ht, hi⟩ := (subdivision_eq_some_iff hc).mp h
  exact hc.isRegular_iff.mpr ⟨ht, entry w, hi⟩

/-- A search starts from a regular triangulation, whatever the hull program proposes if the points lie
on one side of each facet. -/
theorem isRegular_of_initialFrom (hc : c.IsFull) {hull : HullProgram}
    (hf : c.OneSided ∨ hull = proposeCells) {rng : Twister} {fuel : ℕ}
    (h : c.initialFrom hull rng fuel = .ok t) : c.IsRegular t := by
  induction fuel generalizing rng with
  | zero => cases h
  | succ fuel ih =>
    rw [initialFrom] at h
    dsimp only at h
    split at h
    case h_1 t' ht =>
      cases h
      rcases hf with hf | rfl
      · exact hc.isRegular_of_subdivision (subdivision_of_lowerHull hc hf ht)
      · exact hc.isRegular_of_subdivision (subdivision_of_lowerHull_exact hc ht)
    case h_2 =>
      split at h
      case h_1 t' ht =>
        cases h
        exact hc.isRegular_of_subdivision ht
      case h_2 => exact ih h

end Configuration

end Orthant
