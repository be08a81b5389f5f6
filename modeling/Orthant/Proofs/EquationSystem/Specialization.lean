import Mathlib
import Orthant.Proofs.EquationSystem.Total

/-! # Specialization is substitution

Equations are polynomials in the names of their unknowns and parameters. Specializing multiplies
powers of the parameter values into the coefficients, place by place; when no parameter is named
twice or like an unknown, this puts the values for the names.
-/

namespace Orthant

open Finset MvPolynomial

variable {K M : Type} [Field K] [Exact K] [AddCommGroup M] [Module K M] {values : List (Number K)}

namespace EquationSystem

/-! ## Weights of rows -/

/-- The product of the powers of the values with given exponents. -/
def weight (values : List (Number K)) (a : List ℤ) : K :=
  ((a.zip values).map fun p => p.2.value ^ p.1).prod

theorem weight_eq_prod {a : List ℤ} (h : values.length = a.length) : weight values a =
    ∏ i ∈ range a.length, (values.getD i .zero).value ^ a.getD i 0 := by
  induction a generalizing values with
  | nil => simp [weight]
  | cons x a ih =>
    obtain ⟨v, values, rfl⟩ := List.exists_cons_of_length_eq_add_one h
    have := ih (show values.length = a.length by simpa using h)
    simp only [weight, List.zip_cons_cons, List.map_cons, List.prod_cons] at this ⊢
    rw [this, List.length_cons, prod_range_succ']
    simp [mul_comm]

theorem weight_append (u v : List (Number K)) {a b : List ℤ} (h : a.length = u.length) :
    weight (u ++ v) (a ++ b) = weight u a * weight v b := by
  rw [weight, List.zip_append h, List.map_append, List.prod_append]
  rfl

theorem weight_replicate_one [LawfulExact K] (a : List ℤ) (k : ℕ) :
    weight (List.replicate k (.one : Number K)) a = 1 := by
  refine List.prod_eq_one fun q hq => ?_
  obtain ⟨p, hp, rfl⟩ := List.mem_map.mp hq
  rw [List.eq_of_mem_replicate (List.of_mem_zip hp).2, Number.value_one, one_zpow]

theorem foldl_weight {a : List ℤ} {c : Number K} (hc : c.isExact) (hv : ∀ v ∈ values, v.isExact) :
    (a.zip values).foldl (fun c f => if f.1 = 0 then c else c.mul (f.2.pow f.1)) c =
      .exact (c.value * weight values a) := by
  induction a generalizing values c with
  | nil => simpa [weight] using Number.eq_exact hc
  | cons x a ih =>
    cases values with
    | nil => simpa [weight] using Number.eq_exact hc
    | cons v values =>
      obtain ⟨hv₀, hv⟩ := List.forall_mem_cons.mp hv
      have hweight : weight (v :: values) (x :: a) = v.value ^ x * weight values a := by
        simp [weight]
      simp only [List.zip_cons_cons, List.foldl_cons, hweight]
      split
      case isTrue hx =>
        rw [ih hc hv, hx, zpow_zero, one_mul]
      case isFalse =>
        have hpow := Number.pow_exact hv₀ x
        have hmul := Number.mul_exact hc (show (v.pow x).isExact by rw [hpow]; rfl)
        rw [ih (by rw [hmul]; rfl) hv, hmul, hpow, ← mul_assoc]
        rfl

theorem specializeRow_exact {n : ℕ} {r : Row K} (hr : r.2.isExact) (hv : ∀ v ∈ values, v.isExact) :
    specializeRow n values r =
      (r.1.take n, .exact (r.2.value * weight values (r.1.drop n))) := by
  rw [specializeRow, foldl_weight hr hv]

/-- A specialized equation sums the rows over the unknowns, each weighted by the values. -/
theorem total_specialized [LawfulExact K] {s : EquationSystem K} {e : Equation K} (he : e.isExact)
    (hv : ∀ v ∈ values, v.isExact) (n : ℕ) (f : List ℤ → M) :
    (Equation.collect n ((s.byParameter e).map (specializeRow n values))).total f =
      e.total fun a => weight values (a.drop n) • f (a.take n) := by
  have hperm : (s.byParameter e).Perm e := List.mergeSort_perm _ _
  have hexact : ∀ r ∈ s.byParameter e, r.2.isExact := fun r hr =>
    Equation.isExact_iff.mp he r (hperm.subset hr)
  rw [Equation.total_collect, ← Equation.total_perm hperm]
  · rw [Equation.total, List.map_map, Equation.total]
    congr 1
    refine List.map_congr_left fun r hr => ?_
    rw [Function.comp_apply, specializeRow_exact (hexact r hr) hv, smul_smul]
    rfl
  · intro r hr
    obtain ⟨s, hs, rfl⟩ := List.mem_map.mp hr
    rw [specializeRow_exact (hexact s hs) hv]
    rfl

/-- Values for all parameters leave the unknowns and the weighted sums. -/
theorem specialize_eq_ok [LawfulExact K] {s : EquationSystem K} (hl : values.length = s.parameters.length)
    (hv : ∀ v ∈ values, v.isExact) (he : ∀ e ∈ s.equations, e.isExact) (f : List ℤ → M) :
    ∃ sys, s.specialize values = .ok sys ∧ sys.parameters = [] ∧ sys.unknowns = s.unknowns ∧
      sys.equations.map (Equation.total · f) = s.equations.map (Equation.total · fun a =>
        weight values (a.drop s.unknowns.length) • f (a.take s.unknowns.length)) := by
  refine ⟨_, if_pos hl, rfl, rfl, ?_⟩
  rw [List.map_map]
  exact List.map_congr_left fun e hmem => total_specialized (he e hmem) hv _ f

end EquationSystem

/-! ## Polynomials in names -/

noncomputable def namedMonomial (names : List String) (a : List ℤ) : MvPolynomial String K :=
  ((names.zip a).map fun p => X p.1 ^ p.2.toNat).prod

/-- The polynomial of an equation whose exponents are not negative. -/
noncomputable def Equation.polynomial (names : List String) (e : Equation K) :
    MvPolynomial String K :=
  e.total (namedMonomial names)

namespace EquationSystem

/-- The equations as polynomials in the names of unknowns and parameters. -/
noncomputable def polynomials (s : EquationSystem K) : List (MvPolynomial String K) :=
  s.equations.map (Equation.polynomial (s.unknowns ++ s.parameters))

/-- Values in the place of names. -/
noncomputable def substitution (names : List String) (values : List (Number K)) (x : String) :
    MvPolynomial String K :=
  ((names.zip values).lookup x).elim (X x) fun v => C v.value

theorem substitution_of_notMem {names : List String} {x : String} (h : x ∉ names) :
    substitution names values x = X x := by
  have hnone : (names.zip values).lookup x = none := by
    refine List.lookup_eq_none_iff.mpr fun p hp => ?_
    have : p.1 ∈ names := (List.of_mem_zip hp).1
    simpa using fun he : x = p.1 => h (he ▸ this)
  simp [substitution, hnone]

theorem lookup_zip_of_mem {β : Type} {names : List String} {values : List β} (hn : names.Nodup)
    {p : String × β} (h : p ∈ names.zip values) : (names.zip values).lookup p.1 = some p.2 := by
  induction names generalizing values with
  | nil => simp at h
  | cons x names ih =>
    cases values with
    | nil => simp at h
    | cons v values =>
      obtain ⟨hx, hn⟩ := List.nodup_cons.mp hn
      rcases List.mem_cons.mp h with rfl | h
      · simp
      · have hne : p.1 ≠ x := fun he => hx (he ▸ (List.of_mem_zip h).1)
        rw [List.zip_cons_cons, List.lookup_cons, beq_false_of_ne hne]
        exact ih hn h

theorem substitution_of_mem_zip {names : List String} (hn : names.Nodup) {p : String × Number K}
    (h : p ∈ names.zip values) : substitution names values p.1 = C p.2.value := by
  simp [substitution, lookup_zip_of_mem hn h]

omit [Exact K] in
theorem namedMonomial_append (u p : List String) {a b : List ℤ} (h : u.length = a.length) :
    (namedMonomial (u ++ p) (a ++ b) : MvPolynomial String K) =
      namedMonomial u a * namedMonomial p b := by
  rw [namedMonomial, List.zip_append h, List.map_append, List.prod_append]
  rfl

theorem bind₁_namedMonomial_unknowns {u p : List String} (hd : ∀ x ∈ u, x ∉ p) (a : List ℤ) :
    bind₁ (substitution p values) (namedMonomial u a) = namedMonomial u a := by
  rw [namedMonomial, map_list_prod, List.map_map]
  congr 1
  refine List.map_congr_left fun q hq => ?_
  rw [Function.comp_apply, map_pow, bind₁_X_right,
    substitution_of_notMem (hd _ (List.of_mem_zip hq).1)]

theorem bind₁_namedMonomial_parameters {p : List String} (hp : p.Nodup)
    (hl : values.length = p.length) {b : List ℤ} (hb : ∀ x ∈ b, 0 ≤ x) :
    bind₁ (substitution p values) (namedMonomial p b) = C (weight values b) := by
  -- Any substitution that has the values at the names will do, which is what the induction needs.
  suffices hgen : ∀ (p : List String) (values : List (Number K)) (b : List ℤ)
      (σ : String → MvPolynomial String K), values.length = p.length → (∀ x ∈ b, 0 ≤ x) →
      (∀ q ∈ p.zip values, σ q.1 = C q.2.value) →
      bind₁ σ (namedMonomial p b) = C (weight values b) from
    hgen p values b _ hl hb fun q hq => substitution_of_mem_zip hp hq
  intro p
  induction p with
  | nil =>
    intro values b σ hl _ _
    obtain rfl := List.length_eq_zero_iff.mp hl
    simp [namedMonomial, weight]
  | cons x p ih =>
    intro values b σ hl hb hσ
    obtain ⟨v, values, rfl⟩ := List.exists_cons_of_length_eq_add_one hl
    cases b with
    | nil => simp [namedMonomial, weight]
    | cons y b =>
      obtain ⟨hy, hb⟩ := List.forall_mem_cons.mp hb
      obtain ⟨hx, hσ⟩ := List.forall_mem_cons.mp hσ
      have hrest := ih values b σ (by simpa using hl) hb hσ
      simp only [namedMonomial, weight, List.zip_cons_cons, List.map_cons, List.prod_cons, map_mul,
        map_pow, bind₁_X_right] at hrest ⊢
      rw [hrest, hx, ← C_pow, ← zpow_natCast, Int.toNat_of_nonneg hy]

/-- Putting the values for the names of the parameters weights the rows over the unknowns. -/
theorem bind₁_polynomials {s : EquationSystem K} (hl : values.length = s.parameters.length)
    (hrow : ∀ e ∈ s.equations, ∀ r ∈ e, r.1.length = s.width ∧ ∀ x ∈ r.1, 0 ≤ x)
    (hp : s.parameters.Nodup) (hd : ∀ x ∈ s.unknowns, x ∉ s.parameters) :
    s.polynomials.map (bind₁ (substitution s.parameters values)) =
      s.equations.map (Equation.total · fun a => weight values (a.drop s.unknowns.length) •
        namedMonomial s.unknowns (a.take s.unknowns.length)) := by
  rw [polynomials, List.map_map]
  refine List.map_congr_left fun e hmem => ?_
  rw [Function.comp_apply, Equation.polynomial, Equation.total, Equation.total, map_list_sum,
    List.map_map]
  congr 1
  refine List.map_congr_left fun r hr => ?_
  obtain ⟨hlen, hnonneg⟩ := hrow e hmem r hr
  have htake : s.unknowns.length = (r.1.take s.unknowns.length).length := by
    rw [List.length_take, hlen, width]
    omega
  have hsplit : (namedMonomial (s.unknowns ++ s.parameters) r.1 : MvPolynomial String K) =
      namedMonomial s.unknowns (r.1.take s.unknowns.length) *
        namedMonomial s.parameters (r.1.drop s.unknowns.length) := by
    rw [← namedMonomial_append _ _ htake, List.take_append_drop]
  rw [Function.comp_apply, map_smul, hsplit, map_mul, bind₁_namedMonomial_unknowns hd,
    bind₁_namedMonomial_parameters hp hl fun x hx => hnonneg x (List.mem_of_mem_drop hx),
    mul_comm, C_mul']

end EquationSystem

end Orthant
