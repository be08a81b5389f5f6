import Mathlib
import Orthant.Proofs.Lifting.Path
import Orthant.Proofs.Triangulation.LowerHull

/-! # The forms of a triangulation

Every form of a triangulation is found: the point of a fold lies off its cell, and unused points lie
in some cell. In a triangulation that heights induce a ridge has two sides at most.
-/

namespace Orthant

open Finset Lifting

namespace Configuration

variable {c : Configuration} {σ τ : Cell} {t : Triangulation} {j : ℕ} {g : Vec}

/-! ## Forms -/

theorem foldl_weight (σ : List ℕ) (f : ℕ → ℚ) (i : ℕ) (acc : ℚ) (hσ : σ.Nodup) :
    ((σ.map f).zip σ).foldl (fun acc p => if p.2 = i then acc + p.1 else acc) acc =
      acc + if i ∈ σ then f i else 0 := by
  induction σ generalizing acc with
  | nil => simp
  | cons k σ ih =>
    obtain ⟨hk, hσ⟩ := List.nodup_cons.mp hσ
    rw [List.map_cons, List.zip_cons_cons, List.foldl_cons, ih _ hσ]
    rcases eq_or_ne k i with rfl | hki
    · simp [hk]
    · simp [hki, Ne.symm hki]

/-- A cell that is a simplex, with a point outside. -/
structure IsFold (c : Configuration) (σ : Cell) (j : ℕ) : Prop where
  mem : σ ∈ c.simplices
  simplex : IsSimplex ℚ (c.vector ℚ) σ.toFinset
  lt : j < c.size
  notMem : j ∉ σ

theorem IsFold.mem_folds (h : c.IsFold σ j) : (σ.toFinset, j) ∈ folds ℚ (c.vector ℚ) c.placeSet :=
  Lifting.mem_folds.mpr ⟨toFinset_subset h.mem, mem_placeSet.mpr h.lt, h.simplex,
    by simpa using h.notMem⟩

theorem barycentric_of_inverse (hc : c.IsFull) (hl : σ.length = c.dim + 1) {inv : List Vec}
    (hinv : c.inverse σ = some inv) (hj : j < c.size) : c.barycentric σ j =
      .ok (σ.map fun i => coord (c.vector ℚ) σ.toFinset i (c.vector ℚ j)) := by
  rw [barycentric, hinv]
  exact congrArg _ (coordinatesBy_eq hl hc hinv hj)

theorem barycentric_eq_ok (hc : c.IsFull) (hσ : σ ∈ c.simplices)
    (hs : IsSimplex ℚ (c.vector ℚ) σ.toFinset) (hj : j < c.size) : c.barycentric σ j =
      .ok (σ.map fun i => coord (c.vector ℚ) σ.toFinset i (c.vector ℚ j)) := by
  obtain ⟨hp, hl, -⟩ := mem_simplices.mp hσ
  obtain ⟨inv, hinv⟩ := (inverse_eq_some_iff hl hp.nodup).mpr hs
  exact barycentric_of_inverse hc hl hinv hj

theorem rawForm_map (hnd : σ.Nodup) (f : ℕ → ℚ) (j : ℕ) : c.rawForm (σ.map f) σ j =
    (List.range c.size).map fun i => (if i = j then 1 else 0) - if i ∈ σ then f i else 0 := by
  rw [rawForm]
  refine List.map_congr_left fun i _ => ?_
  rw [weightAt, foldl_weight _ _ _ _ hnd, zero_add]

theorem entry_rawForm (h : c.IsFold σ j) :
    entry (c.rawForm (σ.map fun i => coord (c.vector ℚ) σ.toFinset i (c.vector ℚ j)) σ j) =
      Lifting.form (c.vector ℚ) σ.toFinset j := by
  funext i
  rw [rawForm_map (mem_simplices.mp h.mem).1.nodup]
  by_cases hi : i < c.size
  · rw [entry_map_range _ hi, form_eq]
    by_cases hiσ : i ∈ σ
    · rw [if_pos hiσ]
    · rw [if_neg hiσ, h.simplex.coord_eq_zero (by simpa using hiσ), LinearMap.zero_apply]
  · have hiσ : i ∉ σ.toFinset := fun hm => hi (mem_placeSet.mp (toFinset_subset h.mem hm))
    rw [entry_of_length_le (by simpa using hi),
      h.simplex.form_outside hiσ (fun he => hi (he ▸ h.lt))]

/-- The first entry that is not zero is 1 or -1. -/
def IsNormal (g : Vec) : Prop := ∃ x, g.find? (· ≠ 0) = some x ∧ |x| = 1

theorem find?_map_mul (g : Vec) {s : ℚ} (hs : s ≠ 0) :
    (g.map (s * ·)).find? (· ≠ 0) = (g.find? (· ≠ 0)).map (s * ·) := by
  rw [List.find?_map]
  congr 2
  funext x
  simp [hs]

theorem IsNormal.eq_of_smul {g' : Vec} (hg : IsNormal g) (hg' : IsNormal g')
    (hl : g'.length = g.length) {s : ℚ} (hs : 0 < s) (h : entry g' = s • entry g) : g' = g := by
  obtain ⟨x, hx, hx1⟩ := hg
  obtain ⟨x', hx', hx1'⟩ := hg'
  have hmap : g' = g.map (s * ·) := by
    refine List.ext_getElem (by simp [hl]) fun i hi hi' => ?_
    have := congrFun h i
    rw [entry_eq_getElem hi, Pi.smul_apply, entry_eq_getElem (hl ▸ hi)] at this
    simpa using this
  rw [hmap, find?_map_mul g hs.ne', hx] at hx'
  obtain rfl := Option.some.inj hx'
  rw [abs_mul, hx1, mul_one, abs_of_pos hs] at hx1'
  simp [hmap, hx1']

theorem form_eq_ok (hc : c.IsFull) (h : c.IsFold σ j) : ∃ g, c.form σ j = .ok g ∧
    g.length = c.size ∧ IsNormal g ∧
      ∃ s : ℚ, 0 < s ∧ entry g = s • Lifting.form (c.vector ℚ) σ.toFinset j := by
  have hraw := entry_rawForm h
  set r := c.rawForm (σ.map fun i => coord (c.vector ℚ) σ.toFinset i (c.vector ℚ j)) σ j with hr
  have hlen : r.length = c.size := by simp [hr, rawForm]
  obtain ⟨lead, hlead⟩ : ∃ lead, r.find? (· ≠ 0) = some lead := by
    cases hf : r.find? (· ≠ 0) with
    | some lead => exact ⟨lead, rfl⟩
    | none =>
      have hj : j < r.length := hlen.symm ▸ h.lt
      have h0 := List.find?_eq_none.mp hf r[j] (List.getElem_mem hj)
      have h1 := congrFun hraw j
      rw [entry_eq_getElem hj, h.simplex.form_self (by simpa using h.notMem)] at h1
      simp [h1] at h0
  have hne : lead ≠ 0 := by simpa using List.find?_some hlead
  have habs : absRat lead = |lead| := by
    rw [absRat]
    split
    case isTrue h => rw [abs_of_neg h]
    case isFalse h => rw [abs_of_nonneg (not_lt.mp h)]
  have hpos : 0 < |lead|⁻¹ := inv_pos.mpr (abs_pos.mpr hne)
  have hmap : (r.map (· / absRat lead)) = r.map (|lead|⁻¹ * ·) := by
    simp only [habs, div_eq_inv_mul]
  refine ⟨r.map (· / absRat lead), ?_, by simp [hlen], ⟨|lead|⁻¹ * lead, ?_, ?_⟩, |lead|⁻¹, hpos,
    ?_⟩
  · rw [Configuration.form, barycentric_eq_ok hc h.mem h.simplex h.lt]
    simp only [bind, Except.bind, ← hr, hlead]
  · rw [hmap, find?_map_mul r hpos.ne', hlead]
    rfl
  · rw [abs_mul, abs_inv, abs_abs, inv_mul_cancel₀ (abs_ne_zero.mpr hne)]
  · rw [hmap, ← hraw]
    exact funext fun i => entry_scaleVec |lead|⁻¹ r i

theorem form_spec (hc : c.IsFull) (h : c.IsFold σ j) (hg : c.form σ j = .ok g) :
    g.length = c.size ∧ IsNormal g ∧
      ∃ s : ℚ, 0 < s ∧ entry g = s • Lifting.form (c.vector ℚ) σ.toFinset j := by
  obtain ⟨g', hg', hspec⟩ := form_eq_ok hc h
  rw [hg] at hg'
  exact Except.ok.inj hg' ▸ hspec

/-- A form applied to heights is a positive multiple of the height above its cell. -/
theorem sum_form_eq (hc : c.IsFull) (h : c.IsFold σ j) (hg : c.form σ j = .ok g) :
    ∃ s : ℚ, 0 < s ∧ ∀ w : ℕ → ℚ, ∑ i ∈ c.placeSet, entry g i * w i =
      s * height (c.vector ℚ) σ.toFinset j w := by
  obtain ⟨-, -, s, hs, he⟩ := form_spec hc h hg
  exact ⟨s, hs, fun w => he ▸ sum_smul_form h.mem_folds s w⟩

theorem sum_form_vector (hc : c.IsFull) (h : c.IsFold σ j) (hg : c.form σ j = .ok g) :
    ∑ i ∈ c.placeSet, entry g i • c.vector ℚ i = 0 := by
  obtain ⟨-, -, s, -, he⟩ := form_spec hc h hg
  simp only [he, Pi.smul_apply, smul_eq_mul, mul_smul]
  rw [← smul_sum, h.simplex.sum_form (toFinset_subset h.mem) (mem_placeSet.mpr h.lt), smul_zero]

/-! ## Unused points -/

theorem containing_eq_ok (hc : c.IsFull) (hj : j < c.size)
    (ht : ∀ σ ∈ t, σ ∈ c.simplices ∧ IsSimplex ℚ (c.vector ℚ) σ.toFinset)
    (hex : ∃ σ ∈ t, InCone ℚ (c.vector ℚ) σ.toFinset (c.vector ℚ j)) :
    ∃ σ ∈ t, c.containing j t = .ok σ ∧ InCone ℚ (c.vector ℚ) σ.toFinset (c.vector ℚ j) := by
  induction t with
  | nil => simp at hex
  | cons σ t ih =>
    obtain ⟨hσ, hs⟩ := ht σ List.mem_cons_self
    have hall : (σ.map fun i => coord (K := ℚ) (c.vector ℚ) σ.toFinset i (c.vector ℚ j)).all
        (0 ≤ ·) = true ↔ InCone ℚ (c.vector ℚ) σ.toFinset (c.vector ℚ j) := by
      simp [InCone]
    have hstep : c.containing j (σ :: t) = if (σ.map fun i =>
        coord (K := ℚ) (c.vector ℚ) σ.toFinset i (c.vector ℚ j)).all (0 ≤ ·) then .ok σ
        else c.containing j t := by
      rw [containing, barycentric_eq_ok hc hσ hs hj]
      rfl
    rw [hstep]
    by_cases hin : InCone ℚ (c.vector ℚ) σ.toFinset (c.vector ℚ j)
    · rw [if_pos (hall.mpr hin)]
      exact ⟨σ, List.mem_cons_self, rfl, hin⟩
    · rw [if_neg fun h => hin (hall.mp h)]
      obtain ⟨υ, hυ, hrest⟩ := ih (fun υ hυ => ht υ (List.mem_cons_of_mem _ hυ)) (by
        obtain ⟨υ, hυ, hcone⟩ := hex
        rcases List.mem_cons.mp hυ with rfl | hυ
        · exact absurd hcone hin
        · exact ⟨υ, hυ, hcone⟩)
      exact ⟨υ, List.mem_cons_of_mem _ hυ, hrest⟩

/-! ## All forms -/

@[simp] theorem mem_addForm {forms : List Vec} {g' : Vec} :
    g' ∈ addForm forms g ↔ g' ∈ forms ∨ g' = g := by
  rw [addForm]
  split
  case isTrue h =>
    rw [List.contains_iff_mem] at h
    exact ⟨Or.inl, fun h' => h'.elim id fun he => he ▸ h⟩
  case isFalse => simp

theorem nodup_addForm {forms : List Vec} (h : forms.Nodup) : (addForm forms g).Nodup := by
  rw [addForm]
  split
  · exact h
  case isFalse hg =>
    rw [List.contains_iff_mem] at hg
    exact List.nodup_append.mpr ⟨h, List.nodup_singleton g, fun x hx y hy he =>
      hg (List.mem_singleton.mp hy ▸ he ▸ hx)⟩

/-- The cell and the point whose form is taken for a ridge with two sides. -/
def ridgeFold : Ridge → Option (Cell × ℕ)
  | (_, [(σ, _), (_, apex)]) => some (σ, apex)
  | _ => none

theorem addRidge_eq_ok {forms forms' : List Vec} {r : Ridge} : c.addRidge forms r = .ok forms' ↔
    (ridgeFold r = none ∧ forms' = forms) ∨ ∃ σ j g, ridgeFold r = some (σ, j) ∧
      c.form σ j = .ok g ∧ forms' = addForm forms g := by
  obtain ⟨ρ, ss⟩ := r
  match ss with
  | [] => simp [addRidge, ridgeFold, eq_comm]
  | [_] => simp [addRidge, ridgeFold, eq_comm]
  | [(σ, k), (τ, apex)] =>
    refine bind_eq_ok.trans ?_
    simp [ridgeFold, eq_comm]
  | _ :: _ :: _ :: _ => simp [addRidge, ridgeFold, eq_comm]

theorem addUnused_eq_ok {forms forms' : List Vec} : c.addUnused t forms j = .ok forms' ↔
    (t.uses j = true ∧ forms' = forms) ∨ (t.uses j = false ∧ ∃ σ g, c.containing j t = .ok σ ∧
      c.form σ j = .ok g ∧ forms' = addForm forms g) := by
  rw [addUnused]
  split
  case isTrue h => simp [h, eq_comm]
  case isFalse h =>
    have hu : t.uses j = false := by simpa using h
    simp only [hu, Bool.false_eq_true, false_and, true_and, false_or]
    refine bind_eq_ok.trans (exists_congr fun σ => ?_)
    rw [exists_and_left]
    refine and_congr_right fun _ => bind_eq_ok.trans (exists_congr fun g => ?_)
    simp [eq_comm]

/-! No step takes a form away. -/

theorem subset_addForm (forms : List Vec) (g : Vec) : forms ⊆ addForm forms g :=
  fun _ hg => mem_addForm.mpr (.inl hg)

theorem subset_addRidge {forms forms' : List Vec} {r : Ridge}
    (h : c.addRidge forms r = .ok forms') : forms ⊆ forms' := by
  rcases addRidge_eq_ok.mp h with ⟨-, rfl⟩ | ⟨_, _, g, -, -, rfl⟩
  · exact fun _ hg => hg
  · exact subset_addForm forms g

theorem subset_addUnused {forms forms' : List Vec} (h : c.addUnused t forms j = .ok forms') :
    forms ⊆ forms' := by
  rcases addUnused_eq_ok.mp h with ⟨-, rfl⟩ | ⟨-, _, g, -, -, rfl⟩
  · exact fun _ hg => hg
  · exact subset_addForm forms g

theorem exists_mem_of_ridges {ridges : List Ridge} {forms forms' : List Vec}
    (h : ridges.foldlM c.addRidge forms = .ok forms') {r : Ridge} (hr : r ∈ ridges)
    (hf : ridgeFold r = some (σ, j)) : ∃ g ∈ forms', c.form σ j = .ok g := by
  refine foldlM_collects (Q := fun r forms => ∀ σ j, ridgeFold r = some (σ, j) →
    ∃ g ∈ forms, c.form σ j = .ok g) (fun forms r _ forms' hok σ j hf => ?taken)
    (fun forms _ _ forms' hok r hQ σ j hf => ?kept) h r hr σ j hf
  case taken =>
    rcases addRidge_eq_ok.mp hok with ⟨hn, -⟩ | ⟨σ', j', g, hf', hg, rfl⟩
    · rw [hn] at hf
      cases hf
    · rw [hf'] at hf
      cases hf
      exact ⟨g, mem_addForm.mpr (.inr rfl), hg⟩
  case kept =>
    obtain ⟨g, hg, hform⟩ := hQ σ j hf
    exact ⟨g, subset_addRidge hok hg, hform⟩

theorem exists_mem_of_unused {js : List ℕ} {forms forms' : List Vec}
    (h : js.foldlM (c.addUnused t) forms = .ok forms') (hj : j ∈ js) (hu : t.uses j = false)
    (hcont : c.containing j t = .ok σ) : ∃ g ∈ forms', c.form σ j = .ok g := by
  refine foldlM_collects (Q := fun j forms => ∀ σ, t.uses j = false → c.containing j t = .ok σ →
    ∃ g ∈ forms, c.form σ j = .ok g) (fun forms j _ forms' hok σ hu hcont => ?taken)
    (fun forms _ _ forms' hok j hQ σ hu hcont => ?kept) h j hj σ hu hcont
  case taken =>
    rcases addUnused_eq_ok.mp hok with ⟨hu', -⟩ | ⟨-, σ', g, hcont', hg, rfl⟩
    · simp [hu] at hu'
    · rw [hcont] at hcont'
      cases hcont'
      exact ⟨g, mem_addForm.mpr (.inr rfl), hg⟩
  case kept =>
    obtain ⟨g, hg, hform⟩ := hQ σ hu hcont
    exact ⟨g, subset_addUnused hok hg, hform⟩

/-- Distinct forms, each of a cell and a point outside. -/
structure AreFolds (c : Configuration) (t : Triangulation) (forms : List Vec) : Prop where
  nodup : forms.Nodup
  fold : ∀ g ∈ forms, ∃ σ ∈ t, ∃ j, c.IsFold σ j ∧ c.form σ j = .ok g

theorem areFolds_nil : c.AreFolds t [] := ⟨List.nodup_nil, by simp⟩

theorem AreFolds.addForm {forms : List Vec} (h : c.AreFolds t forms) (hσ : σ ∈ t)
    (hf : c.IsFold σ j) (hg : c.form σ j = .ok g) : c.AreFolds t (addForm forms g) := by
  refine ⟨nodup_addForm h.nodup, fun g' hg' => ?_⟩
  rcases mem_addForm.mp hg' with hg' | rfl
  · exact h.fold g' hg'
  · exact ⟨σ, hσ, j, hf, hg⟩

/-- The forms of a triangulation: each belongs to a cell and a point outside, each ridge with two
sides and each unused point has one. -/
structure IsWalls (c : Configuration) (t : Triangulation) (forms : List Vec) : Prop where
  nodup : forms.Nodup
  fold : ∀ g ∈ forms, ∃ σ ∈ t, ∃ j, c.IsFold σ j ∧ c.form σ j = .ok g
  ridge : ∀ r ∈ t.ridges, ∀ σ j, ridgeFold r = some (σ, j) → ∃ g ∈ forms, c.form σ j = .ok g
  unused : ∀ j < c.size, t.uses j = false → ∃ σ ∈ t, c.IsFold σ j ∧
    InCone ℚ (c.vector ℚ) σ.toFinset (c.vector ℚ j) ∧ ∃ g ∈ forms, c.form σ j = .ok g

/-- Cells in order that are simplices, one of them around each point. -/
structure IsCover (c : Configuration) (t : Triangulation) : Prop extends c.IsComplex t where
  simplex : ∀ σ ∈ t, IsSimplex ℚ (c.vector ℚ) σ.toFinset
  covers : ∀ j < c.size, ∃ σ ∈ t, InCone ℚ (c.vector ℚ) σ.toFinset (c.vector ℚ j)

section Cover

variable (hc : c.IsFull) (ht : c.IsCover t)

include ht

theorem isFold_of_ridgeFold {r : Ridge} (hr : r ∈ t.ridges) (h : ridgeFold r = some (σ, j)) :
    σ ∈ t ∧ c.IsFold σ j := by
  obtain ⟨ρ, ss⟩ := r
  match ss, h with
  | [(σ', k), (τ, b)], h =>
    cases h
    obtain ⟨⟨hσ, -⟩, ⟨hτ, hj⟩, hjσ, -⟩ := ht.pair_of_mem_ridges hr
    exact ⟨hσ, ht.mem σ hσ, ht.simplex σ hσ, (mem_simplices.mp (ht.mem τ hτ)).2.2 j hj,
      by simpa using hjσ⟩

include hc

theorem exists_containing (hj : j < c.size) (hu : t.uses j = false) : ∃ σ ∈ t, c.IsFold σ j ∧
    c.containing j t = .ok σ ∧ InCone ℚ (c.vector ℚ) σ.toFinset (c.vector ℚ j) := by
  obtain ⟨σ, hσ, hcont, hcone⟩ := containing_eq_ok hc hj
    (fun σ hσ => ⟨ht.mem σ hσ, ht.simplex σ hσ⟩) (ht.covers j hj)
  refine ⟨σ, hσ, ⟨ht.mem σ hσ, ht.simplex σ hσ, hj, fun hjσ => ?_⟩, hcont, hcone⟩
  have : t.uses j = true := List.any_eq_true.mpr ⟨σ, hσ, by simpa using hjσ⟩
  simp [hu] at this

theorem addRidge_returns {r : Ridge} (hr : r ∈ t.ridges) {forms : List Vec}
    (h : c.AreFolds t forms) : ∃ forms', c.addRidge forms r = .ok forms' ∧ c.AreFolds t forms' := by
  cases hr' : ridgeFold r with
  | none => exact ⟨forms, addRidge_eq_ok.mpr (.inl ⟨hr', rfl⟩), h⟩
  | some φ =>
    obtain ⟨hσ, hf⟩ := isFold_of_ridgeFold ht hr hr'
    obtain ⟨g, hg, -⟩ := form_eq_ok hc hf
    exact ⟨_, addRidge_eq_ok.mpr (.inr ⟨_, _, g, hr', hg, rfl⟩), h.addForm hσ hf hg⟩

theorem addUnused_returns (hj : j < c.size) {forms : List Vec} (h : c.AreFolds t forms) :
    ∃ forms', c.addUnused t forms j = .ok forms' ∧ c.AreFolds t forms' := by
  cases hu : t.uses j with
  | true => exact ⟨forms, addUnused_eq_ok.mpr (.inl ⟨hu, rfl⟩), h⟩
  | false =>
    obtain ⟨σ, hσ, hf, hcont, -⟩ := exists_containing hc ht hj hu
    obtain ⟨g, hg, -⟩ := form_eq_ok hc hf
    exact ⟨_, addUnused_eq_ok.mpr (.inr ⟨hu, σ, g, hcont, hg, rfl⟩), h.addForm hσ hf hg⟩

theorem walls_eq_ok : ∃ forms, c.walls t = .ok forms ∧ c.IsWalls t forms := by
  obtain ⟨forms₁, h₁, hfolds₁⟩ := foldlM_returns (P := c.AreFolds t)
    (fun _ _ hr h => addRidge_returns hc ht hr h) areFolds_nil
  obtain ⟨forms, h₂, hfolds⟩ := foldlM_returns (P := c.AreFolds t)
    (fun _ _ hj h => addUnused_returns hc ht (List.mem_range.mp hj) h) hfolds₁
  have hsub : forms₁ ⊆ forms := foldlM_keeps (P := fun forms => forms₁ ⊆ forms)
    (fun _ _ _ _ hb hok _ hg => subset_addUnused hok (hb hg)) (fun _ hg => hg) h₂
  refine ⟨forms, bind_eq_ok.mpr ⟨forms₁, h₁, h₂⟩, hfolds.nodup, hfolds.fold,
    fun r hr σ j hf => ?ridge, fun j hj hu => ?unused⟩
  case ridge =>
    obtain ⟨g, hg, hform⟩ := exists_mem_of_ridges h₁ hr hf
    exact ⟨g, hsub hg, hform⟩
  case unused =>
    obtain ⟨σ, hσ, hf, hcont, hcone⟩ := exists_containing hc ht hj hu
    exact ⟨σ, hσ, hf, hcone, exists_mem_of_unused h₂ (List.mem_range.mpr hj) hu hcont⟩

end Cover

/-! ## Triangulations that heights induce -/

theorem isStrict_of_mem {w : ℕ → ℚ} (hi : Induces (c.vector ℚ) c.placeSet w t.cells) (hσ : σ ∈ t) :
    IsStrict (c.vector ℚ) c.placeSet w σ.toFinset := hi.strict _ ⟨σ, hσ, rfl⟩

section Regular

variable (hc : c.IsFull) (ht : c.IsComplex t) {w : ℕ → ℚ}
  (hi : Induces (c.vector ℚ) c.placeSet w t.cells)

include ht hi

theorem ridgeFold_of_exchange (hσ : σ ∈ t) (hτ : τ ∈ t) {k b : ℕ} (hk : k ∈ σ) (hb : b ∉ σ)
    (he : τ.toFinset = insert b (σ.toFinset.erase k)) :
    ∃ r ∈ t.ridges, ridgeFold r = some (σ, b) ∨ ridgeFold r = some (τ, k) := by
  have hbσ : b ∉ σ.toFinset := by simpa using hb
  have hbτ : b ∈ τ := List.mem_toFinset.mp (he ▸ mem_insert_self b _)
  have hridge := ridgeOf_eq_of_exchange (ht.mem σ hσ) (ht.mem τ hτ) hbσ he
  set ss := (Cells.sides t).filter fun s => decide (Cells.ridgeOf s = Cells.ridgeOf (σ, k))
    with hss
  have hσs : (σ, k) ∈ ss := List.mem_filter.mpr ⟨Cells.mem_sides.mpr ⟨hσ, hk⟩, by simp⟩
  have hτs : (τ, b) ∈ ss :=
    List.mem_filter.mpr ⟨Cells.mem_sides.mpr ⟨hτ, hbτ⟩, by simpa using hridge⟩
  have hne : (σ, k) ≠ (τ, b) := fun h => hb ((Prod.mk.inj h).1 ▸ hbτ)
  have hnd : ss.Nodup := ht.nodup_sides.filter _
  have honly : ∀ s ∈ ss, s = (σ, k) ∨ s = (τ, b) := by
    rintro ⟨υ, d⟩ hs
    obtain ⟨hs, heq⟩ := List.mem_filter.mp hs
    obtain ⟨hυ, hd⟩ := Cells.mem_sides.mp hs
    by_contra hother
    push Not at hother
    obtain ⟨hdσ, hυ'⟩ := exchange_of_ridgeOf_eq (ht.mem σ hσ) (ht.mem υ hυ) hk hd
      (of_decide_eq_true heq) hother.1
    have hbd : b = d := (isStrict_of_mem hi hσ).eq_of_ridge (List.mem_toFinset.mpr hk) hbσ hdσ
      (he ▸ isStrict_of_mem hi hτ) (hυ' ▸ (isStrict_of_mem hi hυ).toIsLower)
    subst hbd
    exact hother.2 (Prod.ext (eq_of_toFinset_eq (ht.mem υ hυ) (ht.mem τ hτ) (hυ'.trans he.symm)) rfl)
  have hperm : ss.Perm [(σ, k), (τ, b)] := by
    refine (List.perm_ext_iff_of_nodup hnd (by simpa using hne)).mpr fun s => ?_
    refine ⟨fun hs => by simpa using honly s hs, fun hs => ?_⟩
    rcases List.mem_cons.mp hs with rfl | hs
    · exact hσs
    · exact List.mem_singleton.mp hs ▸ hτs
  have hr : (Cells.ridgeOf (σ, k), ss) ∈ t.ridges :=
    Cells.mem_ridges.mpr ⟨hss, List.ne_nil_of_mem hσs⟩
  refine ⟨_, hr, ?_⟩
  rcases List.perm_pair.mp hperm with h | h <;> rw [h] <;> simp [ridgeFold]

include hc

theorem isCover_of_induces : c.IsCover t := by
  refine ⟨ht, fun σ hσ => (isStrict_of_mem hi hσ).simplex, fun j hj => ?_⟩
  obtain ⟨_, ⟨σ, hσ, rfl⟩, hcone⟩ := hi.exists_mem hc.span (c.level_pos ℚ)
    (inHull_vertex (mem_placeSet.mpr hj))
  exact ⟨σ, hσ, hcone⟩

end Regular

end Configuration

end Orthant
