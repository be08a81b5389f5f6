import Mathlib

/-! # Facets of integral cones

Finitely many points of a lattice lie on the positive side of an integral form and span the lattice up
to multiples. A facet form takes the value one, is nonnegative at the points, and every form that
vanishes where it does is a multiple of it. If some form is divisible by a power of two at all points
but odd somewhere, then a facet form is at least that power at one of the points: either the form is
odd somewhere in the kernel of a facet form, where the points span a lattice of smaller rank, or all
facet forms agree with it modulo two, and all can be halved on the sublattice where they are even.
-/

namespace Orthant

variable {M : Type} [AddCommGroup M] {A : Set M} {ℓ U V W : M →+ ℤ} {y : M} {k : ℕ}

/-- Only the zero form vanishes at all points. -/
def Spans (A : Set M) : Prop := ∀ V : M →+ ℤ, (∀ a ∈ A, V a = 0) → V = 0

/-- A form with value one somewhere that is nonnegative at the points and determined by those at which
it vanishes. -/
structure IsFacetForm (A : Set M) (ℓ : M →+ ℤ) : Prop where
  unit : ∃ y, ℓ y = 1
  nonneg : ∀ a ∈ A, 0 ≤ ℓ a
  multiple : ∀ V : M →+ ℤ, (∀ a ∈ A, ℓ a = 0 → V a = 0) → ∃ c : ℤ, ∀ x, V x = c * ℓ x

theorem Spans.exists_ne_zero (hspan : Spans A) (hV : V ≠ 0) : ∃ a ∈ A, V a ≠ 0 := by
  by_contra hall
  push Not at hall
  exact hV (hspan V hall)

theorem IsFacetForm.ne_zero (h : IsFacetForm A ℓ) : ℓ ≠ 0 := by
  obtain ⟨y, hy⟩ := h.unit
  rintro rfl
  exact one_ne_zero hy.symm

/-! ## Primitive forms -/

theorem exists_primitive (hW : W ≠ 0) :
    ∃ g > 0, ∃ ℓ : M →+ ℤ, (∃ y, ℓ y = 1) ∧ ∀ x, W x = g * ℓ x := by
  obtain ⟨g, hg, hmem⟩ : ∃ g : ℤ, 0 ≤ g ∧ ∀ n, n ∈ W.range ↔ g ∣ n := by
    obtain ⟨g, hg⟩ := Int.subgroup_cyclic W.range
    refine ⟨|g|, abs_nonneg g, fun n => ?_⟩
    rw [hg, ← AddSubgroup.zmultiples_eq_closure, Int.mem_zmultiples_iff, abs_dvd]
  have hdvd : ∀ x, g ∣ W x := fun x => (hmem _).mp ⟨x, rfl⟩
  have hpos : 0 < g := by
    refine lt_of_le_of_ne hg ?_
    rintro rfl
    exact hW (AddMonoidHom.ext fun x => zero_dvd_iff.mp (hdvd x))
  refine ⟨g, hpos, AddMonoidHom.mk' (fun x => W x / g) fun x z => ?_, ?_, fun x => ?_⟩
  · rw [map_add, Int.add_ediv_of_dvd_left (hdvd x)]
  · obtain ⟨y, hy⟩ := (hmem g).mpr dvd_rfl
    exact ⟨y, by rw [AddMonoidHom.mk'_apply, hy, Int.ediv_self hpos.ne']⟩
  · exact (Int.mul_ediv_cancel' (hdvd x)).symm

theorem exists_facetForm_of_multiple (hW : W ≠ 0) (hnonneg : ∀ a ∈ A, 0 ≤ W a)
    (hmul : ∀ V : M →+ ℤ, (∀ a ∈ A, W a = 0 → V a = 0) → ∃ p ≠ 0, ∃ q, ∀ x, p * V x = q * W x) :
    ∃ g > 0, ∃ ℓ, IsFacetForm A ℓ ∧ ∀ x, W x = g * ℓ x := by
  obtain ⟨g, hg, ℓ, ⟨y, hy⟩, hWℓ⟩ := exists_primitive hW
  refine ⟨g, hg, ℓ, ⟨⟨y, hy⟩, fun a ha => ?_, fun V hV => ⟨V y, fun x => ?_⟩⟩, hWℓ⟩
  · exact nonneg_of_mul_nonneg_right (hWℓ a ▸ hnonneg a ha) hg
  · obtain ⟨p, hp, q, hpq⟩ := hmul V fun a ha hWa =>
      hV a ha ((mul_eq_zero.mp (hWℓ a ▸ hWa)).resolve_left hg.ne')
    have hone : p * V y = q * g := by rw [hpq, hWℓ, hy, mul_one]
    apply mul_left_cancel₀ hp
    rw [hpq, hWℓ, ← mul_assoc, ← hone, mul_assoc]

theorem exists_tilt (hA : A.Finite) (hnonneg : ∀ a ∈ A, 0 ≤ ℓ a) (hne : ∃ a ∈ A, ℓ a ≠ 0)
    (hV : ∀ a ∈ A, ℓ a = 0 → 0 ≤ V a) :
    ∃ b ∈ A, 0 < ℓ b ∧ ∀ a ∈ A, 0 ≤ ℓ b * V a - V b * ℓ a := by
  obtain ⟨b, ⟨hb, hb0⟩, hmin⟩ := Set.exists_min_image { a ∈ A | ℓ a ≠ 0 }
    (fun a => (V a : ℚ) / ℓ a) (hA.subset (Set.sep_subset _ _)) hne
  have hpos : ∀ a ∈ A, ℓ a ≠ 0 → 0 < ℓ a := fun a ha h0 => lt_of_le_of_ne (hnonneg a ha) h0.symm
  have hb0 := hpos b hb hb0
  refine ⟨b, hb, hb0, fun a ha => sub_nonneg.mpr ?_⟩
  by_cases ha0 : ℓ a = 0
  · rw [ha0, mul_zero]
    exact mul_nonneg hb0.le (hV a ha ha0)
  · have hle := hmin a ⟨ha, ha0⟩
    have ha0 := hpos a ha ha0
    rw [div_le_div_iff₀ (by exact_mod_cast hb0) (by exact_mod_cast ha0)] at hle
    rw [mul_comm (ℓ b)]
    exact_mod_cast hle

theorem exists_facetForm (hA : A.Finite) (hspan : Spans A) (hne : A.Nonempty)
    (hpos : ∃ φ : M →+ ℤ, ∀ a ∈ A, 0 < φ a) : ∃ ℓ, IsFacetForm A ℓ := by
  let zeros (W : M →+ ℤ) : Set M := { a ∈ A | W a = 0 }
  let S : Set (Set M) := zeros '' { W | W ≠ 0 ∧ ∀ a ∈ A, 0 ≤ W a }
  have hfinite : S.Finite := hA.finite_subsets.subset (by
    rintro _ ⟨W, -, rfl⟩
    exact Set.sep_subset _ _)
  have hnonempty : S.Nonempty := by
    obtain ⟨φ, hφ⟩ := hpos
    obtain ⟨a, ha⟩ := hne
    refine ⟨_, φ, ⟨?_, fun a ha => (hφ a ha).le⟩, rfl⟩
    rintro rfl
    exact lt_irrefl _ (hφ a ha)
  obtain ⟨_, ⟨W, ⟨hW, hnonneg⟩, rfl⟩, hmax⟩ := hfinite.exists_maximal hnonempty
  obtain ⟨g, -, ℓ, hℓ, -⟩ := exists_facetForm_of_multiple hW hnonneg fun V hV => by
    obtain ⟨b, hb, hb0, htilt⟩ := exists_tilt hA hnonneg (hspan.exists_ne_zero hW)
      fun a ha ha0 => (hV a ha ha0).ge
    let T : M →+ ℤ := W b • V - V b • W
    have hT : ∀ x, T x = W b * V x - V b * W x := fun x => by simp [T]
    refine ⟨W b, hb0.ne', V b, fun x => ?_⟩
    rw [← sub_eq_zero, ← hT]
    by_contra hTx
    have hT0 : T ≠ 0 := fun h0 => hTx (by rw [h0]; rfl)
    have hle : zeros W ⊆ zeros T := fun a ⟨ha, ha0⟩ =>
      ⟨ha, by rw [hT, ha0, hV a ha ha0]; simp⟩
    have hmem : b ∈ zeros T := ⟨hb, by rw [hT]; ring⟩
    have := hmax ⟨T, ⟨hT0, fun a ha => hT a ▸ htilt a ha⟩, rfl⟩ hle hmem
    exact hb0.ne' this.2
  exact ⟨ℓ, hℓ⟩

/-! ## The kernel of a facet form -/

def kernelPart (ℓ : M →+ ℤ) (hy : ℓ y = 1) : M →+ ℓ.ker :=
  AddMonoidHom.mk' (fun x => ⟨x - ℓ x • y, by simp [AddMonoidHom.mem_ker, hy]⟩) fun x z => by
    refine Subtype.ext ?_
    simp only [map_add, add_smul, AddSubgroup.coe_add]
    abel

theorem kernelPart_of_mem (hy : ℓ y = 1) {x : M} (hx : ℓ x = 0) : kernelPart ℓ hy x = ⟨x, hx⟩ :=
  Subtype.ext (by simp [kernelPart, hx])

def kernelPoints (A : Set M) (ℓ : M →+ ℤ) : Set ℓ.ker := { x | (x : M) ∈ A }

namespace IsFacetForm

variable (h : IsFacetForm A ℓ)

include h

theorem spans_kernelPoints : Spans (kernelPoints A ℓ) := by
  intro V hV
  obtain ⟨y, hy⟩ := h.unit
  obtain ⟨c, hc⟩ := h.multiple (V.comp (kernelPart ℓ hy)) fun a ha ha0 => by
    rw [AddMonoidHom.comp_apply, kernelPart_of_mem hy ha0]
    exact hV _ ha
  refine AddMonoidHom.ext fun x => ?_
  have hx := hc x
  rwa [AddMonoidHom.comp_apply, kernelPart_of_mem hy x.2, x.2, mul_zero] at hx

theorem exists_extension (hA : A.Finite) (hspan : Spans A) {m : ℓ.ker →+ ℤ}
    (hm : IsFacetForm (kernelPoints A ℓ) m) :
    ∃ ℓ', IsFacetForm A ℓ' ∧ ∃ t ≥ 1, ∀ x : ℓ.ker, ℓ' x = t * m x := by
  obtain ⟨y, hy⟩ := h.unit
  obtain ⟨z, hz⟩ := hm.unit
  let E : M →+ ℤ := m.comp (kernelPart ℓ hy)
  have hE : ∀ x : ℓ.ker, E x = m x := fun x => by
    rw [AddMonoidHom.comp_apply, kernelPart_of_mem hy x.2]
  obtain ⟨b, hb, hb0, htilt⟩ := exists_tilt (V := E) hA h.nonneg (hspan.exists_ne_zero h.ne_zero)
    fun a ha ha0 => by
      rw [hE ⟨a, ha0⟩]
      exact hm.nonneg _ ha
  let W : M →+ ℤ := ℓ b • E - E b • ℓ
  have hW : ∀ x, W x = ℓ b * E x - E b * ℓ x := fun x => by simp [W]
  have hker : ∀ x : ℓ.ker, W x = ℓ b * m x := fun x => by
    rw [hW, hE, x.2, mul_zero, sub_zero]
  have hW0 : W ≠ 0 := fun h0 => hb0.ne' (by rw [← mul_one (ℓ b), ← hz, ← hker, h0]; rfl)
  obtain ⟨g, hg, ℓ', hℓ', hmul⟩ :=
    exists_facetForm_of_multiple hW0 (fun a ha => hW a ▸ htilt a ha) fun V hV => by
      obtain ⟨c, hc⟩ := hm.multiple (V.comp ℓ.ker.subtype) fun a ha ha0 =>
        hV a ha (by rw [hker, ha0, mul_zero])
      -- What is left of the form after a multiple of the tilted one vanishes on the kernel and at `b`.
      let R : M →+ ℤ := ℓ b • V - c • W
      have hR : ∀ x, R x = ℓ b * V x - c * W x := fun x => by simp [R]
      have hRker : ∀ x : ℓ.ker, R x = 0 := fun x => by
        have hx : V x = c * m x := hc x
        rw [hR, hx, hker]
        ring
      obtain ⟨e, he⟩ := h.multiple R fun a _ ha0 => hRker ⟨a, ha0⟩
      have hWb : W b = 0 := by rw [hW]; ring
      have he0 : e = 0 := by
        have hRb := he b
        rw [hR, hWb, hV b hb hWb, mul_zero, mul_zero, sub_zero, zero_eq_mul] at hRb
        exact hRb.resolve_right hb0.ne'
      refine ⟨ℓ b, hb0.ne', c, fun x => ?_⟩
      rw [← sub_eq_zero, ← hR, he, he0, zero_mul]
  refine ⟨ℓ', hℓ', ℓ' z, ?_, fun x => ?_⟩
  · have hz' : 0 < g * ℓ' z := by rwa [← hmul, hker, hz, mul_one]
    exact pos_of_mul_pos_right hz' hg.le
  · apply mul_left_cancel₀ hg.ne'
    rw [← hmul, hker, ← mul_assoc, ← hmul, hker, hz, mul_one]

theorem even_iff (heven : ∀ x : ℓ.ker, Even (U x)) (hodd : ∃ x, Odd (U x)) (x : M) :
    Even (U x) ↔ Even (ℓ x) := by
  obtain ⟨y, hy⟩ := h.unit
  have hsplit : ∀ x, Even (U x) ↔ Even (ℓ x) ∨ Even (U y) := fun x => by
    have hx : U x = U (kernelPart ℓ hy x) + ℓ x * U y := by
      simp [kernelPart]
    rw [hx, Int.even_add, iff_true_left (heven _), Int.even_mul]
  have hy : ¬ Even (U y) := by
    obtain ⟨x, hx⟩ := hodd
    rw [← Int.not_even_iff_odd, hsplit, not_or] at hx
    exact hx.2
  rw [hsplit, or_iff_left hy]

end IsFacetForm

/-! ## Halving -/

/-- Finitely many points on the positive side of a form span, and another form is odd somewhere but
divisible by a power of two at the points. -/
structure IsDivisible (A : Set M) (U : M →+ ℤ) (k : ℕ) : Prop where
  finite : A.Finite
  positive : ∃ φ : M →+ ℤ, ∀ a ∈ A, 0 < φ a
  spans : Spans A
  odd : ∃ x, Odd (U x)
  dvd : ∀ a ∈ A, 2 ^ k ∣ U a

def evens (U : M →+ ℤ) : AddSubgroup M := ((Int.castAddHom (ZMod 2)).comp U).ker

theorem mem_evens {x : M} : x ∈ evens U ↔ Even (U x) := by
  simp [evens, AddMonoidHom.mem_ker, ZMod.intCast_eq_zero_iff_even]

def half (U : M →+ ℤ) : evens U →+ ℤ :=
  AddMonoidHom.mk' (fun x => U x / 2) fun x z => by
    rw [AddSubgroup.coe_add, map_add, Int.add_ediv_of_dvd_left (mem_evens.mp x.2).two_dvd]

theorem two_mul_half (x : evens U) : 2 * half U x = U x :=
  Int.mul_ediv_cancel' (mem_evens.mp x.2).two_dvd

/-- The double of a vector, at which every form is even. -/
def double (U : M →+ ℤ) : M →+ evens U :=
  AddMonoidHom.mk' (fun x => ⟨x + x, mem_evens.mpr (by simp)⟩) fun x z =>
    Subtype.ext (add_add_add_comm x z x z)

theorem double_coe (x : evens U) : double U x = x + x := rfl

def evenPoints (A : Set M) (U : M →+ ℤ) : Set (evens U) := { x | (x : M) ∈ A }

namespace IsDivisible

theorem exists_facetForm (h : IsDivisible A U k) : ∃ ℓ, IsFacetForm A ℓ := by
  refine Orthant.exists_facetForm h.finite h.spans ?_ h.positive
  obtain ⟨x, hx⟩ := h.odd
  have hU : U ≠ 0 := by
    rintro rfl
    simp at hx
  obtain ⟨a, ha, -⟩ := h.spans.exists_ne_zero hU
  exact ⟨a, ha⟩

/-- On the kernel of a facet form there are fewer points. -/
theorem kernel (h : IsDivisible A U k) (hℓ : IsFacetForm A ℓ) (hodd : ∃ x : ℓ.ker, Odd (U x)) :
    IsDivisible (kernelPoints A ℓ) (U.comp ℓ.ker.subtype) k ∧
      (kernelPoints A ℓ).ncard < A.ncard := by
  have hinj : Function.Injective (Subtype.val : ℓ.ker → M) := Subtype.val_injective
  obtain ⟨φ, hφ⟩ := h.positive
  refine ⟨⟨?_, ⟨φ.comp ℓ.ker.subtype, fun a => hφ a⟩, hℓ.spans_kernelPoints, hodd,
    fun a => h.dvd a⟩, ?_⟩
  · exact h.finite.preimage hinj.injOn
  · obtain ⟨b, hb, hb0⟩ := h.spans.exists_ne_zero hℓ.ne_zero
    rw [← Set.ncard_image_of_injective _ hinj]
    refine Set.ncard_lt_ncard (Set.ssubset_iff_of_subset ?_ |>.mpr ⟨b, hb, ?_⟩) h.finite
    · rintro _ ⟨a, ha, rfl⟩
      exact ha
    · rintro ⟨a, -, rfl⟩
      exact hb0 a.2

theorem even_of_mem (h : IsDivisible A U (k + 1)) {a : M} (ha : a ∈ A) : a ∈ evens U :=
  mem_evens.mpr (even_iff_two_dvd.mpr ((dvd_pow_self 2 k.succ_ne_zero).trans (h.dvd a ha)))

theorem halve (h : IsDivisible A U (k + 1)) : IsDivisible (evenPoints A U) (half U) k := by
  obtain ⟨φ, hφ⟩ := h.positive
  refine ⟨h.finite.preimage Subtype.val_injective.injOn,
    ⟨φ.comp (evens U).subtype, fun a => hφ a⟩, fun V hV => ?_, ?_, fun a ha => ?_⟩
  · have hzero := h.spans (V.comp (double U)) fun a ha => by
      change V (double U (⟨a, h.even_of_mem ha⟩ : evens U)) = 0
      rw [double_coe, map_add, hV _ ha, add_zero]
    refine AddMonoidHom.ext fun x => ?_
    have hx : V (double U x) = 0 := DFunLike.congr_fun hzero (x : M)
    rw [double_coe, map_add] at hx
    rw [AddMonoidHom.zero_apply]
    omega
  · obtain ⟨x, hx⟩ := h.odd
    have htwo : 2 * half U (double U x) = U x + U x := (two_mul_half _).trans (map_add U x x)
    refine ⟨double U x, ?_⟩
    rwa [show half U (double U x) = U x by omega]
  · have hdvd := h.dvd a ha
    rw [← two_mul_half, pow_succ'] at hdvd
    exact Int.dvd_of_mul_dvd_mul_left two_ne_zero hdvd

/-- When all facet forms agree with the form modulo two, those on the even vectors are halves of facet
forms. -/
theorem exists_double (h : IsDivisible A U (k + 1))
    (heven : ∀ ℓ, IsFacetForm A ℓ → ∀ x, Even (U x) → Even (ℓ x)) {m : evens U →+ ℤ}
    (hm : IsFacetForm (evenPoints A U) m) :
    ∃ ℓ, IsFacetForm A ℓ ∧ ∀ x : evens U, ℓ x = 2 * m x := by
  obtain ⟨z, hz⟩ := hm.unit
  let W : M →+ ℤ := m.comp (double U)
  have hW : ∀ x : evens U, W x = 2 * m x := fun x => by
    change m (double U x) = _
    rw [double_coe, map_add, two_mul]
  have hW0 : W ≠ 0 := fun h0 => by
    have hWz := hW z
    rw [h0, hz, AddMonoidHom.zero_apply] at hWz
    omega
  obtain ⟨g, hg, ℓ, hℓ, hmul⟩ := exists_facetForm_of_multiple hW0
    (fun a ha => by
      rw [hW ⟨a, h.even_of_mem ha⟩]
      exact mul_nonneg two_pos.le (hm.nonneg _ ha))
    fun V hV => by
      obtain ⟨c, hc⟩ := hm.multiple (V.comp (evens U).subtype) fun a ha ha0 =>
        hV a ha (by rw [hW, ha0, mul_zero])
      refine ⟨2, two_ne_zero, c, fun x => ?_⟩
      rw [two_mul, ← map_add]
      exact hc (double U x)
  obtain ⟨j, hj⟩ := (heven ℓ hℓ z (mem_evens.mp z.2)).two_dvd
  have hgj : g * j = 1 := by
    have := hW z
    rw [hmul, hz, hj] at this
    linarith
  have hg1 : g = 1 := Int.eq_one_of_mul_eq_one_right hg.le hgj
  exact ⟨ℓ, hℓ, fun x => by rw [← hW, hmul, hg1, one_mul]⟩

theorem exists_two_pow_le (h : IsDivisible A U k) :
    ∃ ℓ, IsFacetForm A ℓ ∧ ∃ a ∈ A, 2 ^ k ≤ ℓ a := by
  induction k generalizing M with
  | zero =>
    obtain ⟨ℓ, hℓ⟩ := h.exists_facetForm
    obtain ⟨a, ha, ha0⟩ := h.spans.exists_ne_zero hℓ.ne_zero
    have := hℓ.nonneg a ha
    exact ⟨ℓ, hℓ, a, ha, by omega⟩
  | succ k ih =>
    induction hn : A.ncard using Nat.strong_induction_on generalizing M with
    | h n ihn =>
      by_cases hker : ∃ ℓ, IsFacetForm A ℓ ∧ ∃ x : ℓ.ker, Odd (U x)
      · obtain ⟨ℓ, hℓ, hodd⟩ := hker
        obtain ⟨hdiv, hlt⟩ := h.kernel hℓ hodd
        obtain ⟨m, hm, a, ha, hle⟩ := ihn _ (hn ▸ hlt) hdiv rfl
        obtain ⟨ℓ', hℓ', t, ht, hmul⟩ := hℓ.exists_extension h.finite h.spans hm
        refine ⟨ℓ', hℓ', a, ha, ?_⟩
        rw [hmul]
        exact hle.trans (le_mul_of_one_le_left (hm.nonneg a ha) ht)
      · have heven : ∀ ℓ, IsFacetForm A ℓ → ∀ x, Even (U x) → Even (ℓ x) := fun ℓ hℓ x =>
          (hℓ.even_iff (fun x => by
            by_contra hx
            exact hker ⟨ℓ, hℓ, x, Int.not_even_iff_odd.mp hx⟩) h.odd x).mp
        obtain ⟨m, hm, a, ha, hle⟩ := ih h.halve
        obtain ⟨ℓ, hℓ, hmul⟩ := h.exists_double heven hm
        refine ⟨ℓ, hℓ, a, ha, ?_⟩
        rw [hmul, pow_succ']
        exact mul_le_mul_of_nonneg_left hle two_pos.le

end IsDivisible

end Orthant
