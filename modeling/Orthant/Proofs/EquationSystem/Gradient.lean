import Mathlib
import Orthant.Proofs.EquationSystem.Fresh
import Orthant.Proofs.EquationSystem.Listing
import Orthant.Proofs.Number.Real
import Orthant.Proofs.Support

/-! # The logarithmic gradient

The first equation of the general system is the deformation: the positive terms plus the unknown `t`
times the negative ones. The others are its logarithmic derivatives by the variables, so each
monomial has its coefficient in the deformation times the exponent of the variable. At `t = 1` this
is the polynomial of the support with its logarithmic gradient.
-/

namespace Orthant

open MvPolynomial

variable {K : Type} [Field K]

/-! ## Monomials -/

noncomputable def eulerOperator (x : String) : MvPolynomial String K →ₗ[K] MvPolynomial String K :=
  (LinearMap.mulLeft K (X x)).comp (pderiv x).toLinearMap

theorem eulerOperator_apply (x : String) (p : MvPolynomial String K) :
    eulerOperator x p = X x * pderiv x p := rfl

theorem coeff_eulerOperator (x : String) (m : String →₀ ℕ) (p : MvPolynomial String K) :
    coeff m (eulerOperator x p) = m x * coeff m p := by
  classical
  induction p using MvPolynomial.induction_on' with
  | add p q hp hq => rw [map_add, coeff_add, coeff_add, hp, hq, mul_add]
  | monomial k c =>
    rw [eulerOperator_apply, X_mul_pderiv_monomial, coeff_smul, coeff_monomial]
    split
    case isTrue h => rw [h, nsmul_eq_mul]
    case isFalse => simp

section Monomial

variable {names : List String} {x : String} {a : List ℤ}

theorem namedMonomial_cons (y : String) (names : List String) (k : ℤ) (a : List ℤ) :
    (namedMonomial (y :: names) (k :: a) : MvPolynomial String K) = X y ^ k.toNat * namedMonomial names a := by
  simp [namedMonomial]

theorem pderiv_namedMonomial_of_notMem (hx : x ∉ names) :
    pderiv x (namedMonomial names a : MvPolynomial String K) = 0 := by
  induction names generalizing a with
  | nil => simp [namedMonomial]
  | cons y names ih =>
    obtain ⟨hxy, hx⟩ := not_or.mp (List.mem_cons.not.mp hx)
    cases a with
    | nil => simp [namedMonomial]
    | cons k a =>
      have ih := ih (a := a) hx
      rw [namedMonomial_cons, pderiv_mul, ih, pderiv_pow, pderiv_X_of_ne (Ne.symm hxy)]
      simp

theorem eulerOperator_namedMonomial (hn : names.Nodup) {i : ℕ} (hi : i < names.length)
    (ha : ∀ k ∈ a, 0 ≤ k) :
    eulerOperator names[i] (namedMonomial names a : MvPolynomial String K) =
      ((a.getD i 0 : ℤ) : K) • namedMonomial names a := by
  induction names generalizing a i with
  | nil => simp at hi
  | cons y names ih =>
    obtain ⟨hy, hn⟩ := List.nodup_cons.mp hn
    cases a with
    | nil => simp [namedMonomial, eulerOperator_apply]
    | cons k a =>
      obtain ⟨hk, ha⟩ := List.forall_mem_cons.mp ha
      rw [namedMonomial_cons, eulerOperator_apply]
      cases i with
      | zero =>
        have hpow : X y * pderiv y (X y ^ k.toNat) =
            (k : K) • (X y : MvPolynomial String K) ^ k.toNat := by
          have := X_mul_pderiv_monomial (R := K) (i := y) (m := Finsupp.single y k.toNat) (r := 1)
          rw [← X_pow_eq_monomial, Finsupp.single_eq_same] at this
          rw [this, ← Nat.cast_smul_eq_nsmul K, ← Int.cast_natCast, Int.toNat_of_nonneg hk]
        rw [List.getElem_cons_zero, List.getD_cons_zero, pderiv_mul,
          pderiv_namedMonomial_of_notMem hy, mul_zero, add_zero, ← mul_assoc, hpow, smul_mul_assoc]
      | succ i =>
        have hi : i < names.length := by simpa using hi
        have hne : y ≠ names[i] := fun he => hy (he ▸ List.getElem_mem hi)
        have ih := ih hn hi ha
        rw [eulerOperator_apply] at ih
        rw [List.getElem_cons_succ, List.getD_cons_succ, pderiv_mul, pderiv_pow,
          pderiv_X_of_ne hne, mul_zero, zero_mul, zero_add, mul_left_comm, ih, mul_smul_comm]

end Monomial

/-! ## Sums of rows -/

namespace Equation

variable [Exact K] {M N : Type} [AddCommGroup M] [Module K M] [AddCommGroup N] [Module K N]

theorem map_total (φ : M →ₗ[K] N) (e : Equation K) (f : List ℤ → M) :
    φ (e.total f) = e.total fun a => φ (f a) := by
  rw [total, map_list_sum, List.map_map, total]
  congr 1
  exact List.map_congr_left fun r _ => map_smul φ _ _

theorem total_lead (e : Equation K) (lead : ℤ) (f : List ℤ → M) :
    total (e.map fun r => (lead :: r.1, r.2)) f = e.total fun a => f (lead :: a) := by
  rw [total, List.map_map, total]
  rfl

theorem eulerOperator_polynomial {e : Equation K} {names : List String} (hn : names.Nodup) {i : ℕ}
    (hi : i < names.length) (hnonneg : ∀ r ∈ e, ∀ k ∈ r.1, 0 ≤ k) :
    eulerOperator names[i] (e.polynomial names) =
      e.total fun a => ((a.getD i 0 : ℤ) : K) • namedMonomial names a := by
  rw [polynomial, map_total]
  exact total_congr fun r hr => eulerOperator_namedMonomial hn hi (hnonneg r hr)

end Equation

/-! ## The general system -/

namespace Support

variable {s : Support K}

/-- A polynomial in distinct variables with exact coefficients. Exponents may stand twice, and
coefficients may be zero. -/
structure IsExact [Exact K] (s : Support K) : Prop where
  smooth : s.isSmooth = true
  nodup : s.names.Nodup
  count : s.coefficients.length = s.exponents.length
  length : ∀ a ∈ s.exponents, a.length = s.dimension
  nonneg : ∀ a ∈ s.exponents, ∀ k ∈ a, 0 ≤ k
  exact : ∀ c ∈ s.coefficients, c.isExact

omit [Field K] in
theorem IsExact.checked [Exact K] (hs : s.IsExact) : s.checked = .ok s := by
  refine checked_of_defined hs.count ?_
  rintro c hc rfl
  cases hs.exact _ hc

end Support

namespace EquationSystem

variable [Exact K] {s : Support K} {M : Type} [AddCommGroup M] [Module K M]

section Exact

variable (hs : s.IsExact)

include hs

omit [Field K] in
theorem exact_of_mem_rows : ∀ r ∈ s.positiveTerms.map (fun r => (0 :: r.1, r.2)) ++
    s.negativeTerms.map (fun r => (1 :: r.1, r.2)), r.2.isExact ∧ ∀ k ∈ r.1, 0 ≤ k := by
  have hterm : ∀ t ∈ s.terms, t.2.isExact ∧ ∀ k ∈ t.1, 0 ≤ k := fun t ht =>
    ⟨hs.exact _ (List.of_mem_zip ht).2, hs.nonneg _ (List.of_mem_zip ht).1⟩
  intro r hr
  rcases List.mem_append.mp hr with hr | hr
  all_goals
    obtain ⟨t, ht, rfl⟩ := List.mem_map.mp hr
    obtain ⟨hexact, hnonneg⟩ := hterm t (List.mem_of_mem_filter ht)
    exact ⟨hexact, List.forall_mem_cons.mpr ⟨by decide, hnonneg⟩⟩

theorem isExact_deformation : (deformation s).isExact :=
  Equation.isExact_collect (fun r hr => (exact_of_mem_rows hs r hr).1) _

theorem isReduced_deformation [LawfulExact K] : (deformation s).IsReduced :=
  Equation.isReduced_collect (fun r hr => (exact_of_mem_rows hs r hr).1) _

theorem nonneg_of_mem_deformation : ∀ r ∈ deformation s, ∀ k ∈ r.1, 0 ≤ k := by
  intro r hr
  obtain ⟨r', hr', he⟩ :=
    Equation.exponent_of_mem_collect (fun r hr => (exact_of_mem_rows hs r hr).1) hr
  exact he ▸ (exact_of_mem_rows hs r' hr').2

variable [LawfulExact K]

theorem total_deformation (f : List ℤ → M) : (deformation s).total f =
    Equation.total s.positiveTerms (fun a => f (0 :: a)) +
      Equation.total s.negativeTerms fun a => f (1 :: a) := by
  rw [deformation, Equation.total_collect fun r hr => (exact_of_mem_rows hs r hr).1,
    Equation.total_append, Equation.total_lead, Equation.total_lead]

theorem polynomial_deformation (t : String) : (deformation s).polynomial (t :: s.names) =
    Equation.polynomial s.names s.positiveTerms +
      X t * Equation.polynomial s.names s.negativeTerms := by
  have hneg : X t * Equation.polynomial s.names s.negativeTerms =
      Equation.total s.negativeTerms fun a => X t * namedMonomial s.names a := by
    rw [Equation.polynomial, ← LinearMap.mulLeft_apply K, Equation.map_total]
    rfl
  rw [Equation.polynomial, total_deformation hs, hneg]
  simp only [namedMonomial_cons, Int.toNat_zero, pow_zero, one_mul, Int.toNat_one, pow_one]
  rfl

theorem polynomials_general [CharZero K] {t : String} (ht : t ∉ s.names) :
    (criticalEquations s.dimension (deformation s)).map (Equation.polynomial (t :: s.names)) =
      (deformation s).polynomial (t :: s.names) ::
        s.names.map fun x => eulerOperator x ((deformation s).polynomial (t :: s.names)) := by
  have hn : (t :: s.names).Nodup := List.nodup_cons.mpr ⟨ht, hs.nodup⟩
  refine (total_criticalEquations (isExact_deformation hs) _).trans (congrArg _ ?_)
  refine List.ext_getElem (by simp [Support.dimension]) fun i hi _ => ?_
  have hi : i < s.names.length := by simpa [Support.dimension] using hi
  rw [List.getElem_map, List.getElem_range, List.getElem_map]
  exact (Equation.eulerOperator_polynomial (i := i + 1) hn (by simpa using hi)
    (nonneg_of_mem_deformation hs)).symm

theorem total_deformation_one {t : String} (ht : t ∉ s.names) {w v : List ℤ → K}
    (hw : ∀ k a, w (k :: a) = v a) :
    bind₁ (substitution [t] [(.one : Number K)]) ((deformation s).total fun a =>
        w a • namedMonomial (t :: s.names) a) =
      Equation.total s.terms fun a => v a • namedMonomial s.names a := by
  have hone : bind₁ (substitution [t] [(.one : Number K)]) (X t) = 1 := by
    rw [bind₁_X_right, substitution_of_mem_zip (p := (t, .one)) (by simp) (by simp)]
    simp
  have hrest : ∀ a, bind₁ (substitution [t] [(.one : Number K)]) (namedMonomial s.names a) =
      namedMonomial s.names a :=
    bind₁_namedMonomial_unknowns fun x hx => by
      rw [List.mem_singleton]
      exact fun he => ht (he ▸ hx)
  have hlead : ∀ k a, bind₁ (substitution [t] [(.one : Number K)])
      (w (k :: a) • namedMonomial (t :: s.names) (k :: a)) = v a • namedMonomial s.names a := by
    intro k a
    rw [hw, map_smul, namedMonomial_cons, map_mul, map_pow, hone, one_pow, one_mul,
      hrest]
  rw [total_deformation hs, map_add, Equation.total_terms]
  congr 1
  all_goals
    refine (Equation.map_total (bind₁ (substitution [t] [(.one : Number K)])).toLinearMap _ _).trans ?_
    exact Equation.total_congr fun r _ => hlead _ r.1

theorem polynomials_general_one [CharZero K] {t : String} (ht : t ∉ s.names) :
    ((criticalEquations s.dimension (deformation s)).map
        (Equation.polynomial (t :: s.names))).map (bind₁ (substitution [t] [(.one : Number K)])) =
      Equation.polynomial s.names s.terms ::
        s.names.map fun x => eulerOperator x (Equation.polynomial s.names s.terms) := by
  have hterms : ∀ r ∈ s.terms, ∀ k ∈ r.1, 0 ≤ k := fun r hr =>
    hs.nonneg _ (List.of_mem_zip hr).1
  have hpolynomials : (criticalEquations s.dimension (deformation s)).map
      (Equation.polynomial (t :: s.names)) = (deformation s).total (namedMonomial (t :: s.names)) ::
        (List.range s.dimension).map fun i => (deformation s).total fun a =>
          ((a.getD (i + 1) 0 : ℤ) : K) • namedMonomial (t :: s.names) a :=
    total_criticalEquations (isExact_deformation hs) _
  have hfirst := total_deformation_one hs ht (w := fun _ => 1) (v := fun _ => 1) fun _ _ => rfl
  simp only [one_smul] at hfirst
  rw [hpolynomials, List.map_cons, List.map_map]
  refine congrArg₂ List.cons hfirst ?_
  refine List.ext_getElem (by simp [Support.dimension]) fun i hi _ => ?_
  have hi : i < s.names.length := by simpa [Support.dimension] using hi
  rw [List.getElem_map, List.getElem_range, List.getElem_map]
  exact (total_deformation_one hs ht fun k a => by rw [List.getD_cons_succ]).trans
    (Equation.eulerOperator_polynomial hs.nodup hi hterms).symm

/-- The general system of a polynomial is given, and it is the logarithmic gradient of the deformation.
It is listed without repeated exponents and without zeros, save for one row of zeros where an equation
is zero. -/
theorem ofSupport_eq_gradient [CharZero K] : ∃ sys p ls, ofSupport s = .ok sys ∧
    sys.unknowns = sys.t :: s.names ∧ sys.t ∉ s.names ∧ sys.parameters = [] ∧
    sys.equations.length = s.dimension + 1 ∧
    p = Equation.polynomial s.names s.positiveTerms +
      X sys.t * Equation.polynomial s.names s.negativeTerms ∧
    sys.polynomials = p :: s.names.map (fun x => X x * pderiv x p) ∧
    (∀ x ∈ s.names, ∀ m, coeff m (X x * pderiv x p) = m x * coeff m p) ∧
    sys.polynomials.map (bind₁ (substitution [sys.t] [(.one : Number K)])) =
      Equation.polynomial s.names s.terms ::
        s.names.map (fun x => X x * pderiv x (Equation.polynomial s.names s.terms)) ∧
    sys.listings = .ok ls ∧
    List.Forall₂ (fun q l => Equation.polynomial sys.unknowns l = q ∧ (l.map Prod.fst).Nodup ∧
      ((∀ r ∈ l, r.2.value ≠ 0) ∨
        q = 0 ∧ l = [(List.replicate (s.dimension + 1) 0, .zero)])) sys.polynomials ls := by
  have ht : freshName "t" s.names ∉ s.names := freshName_notMem _ _
  have hpolynomials : (general s).polynomials = (criticalEquations s.dimension (deformation s)).map
      (Equation.polynomial (freshName "t" s.names :: s.names)) := by
    rw [polynomials, general, List.append_nil]
  have hnonneg : ∀ e ∈ criticalEquations s.dimension (deformation s), ∀ r ∈ e, ∀ k ∈ r.1, 0 ≤ k := by
    intro e he r hr
    obtain ⟨r', hr', h⟩ := exponent_of_mem_criticalEquations he hr
    exact h ▸ nonneg_of_mem_deformation hs r' hr'
  have hcheck : (general s).check = .ok () := by
    refine check_eq_ok ?_ hnonneg
    rw [general, List.append_nil]
    exact List.nodup_cons.mpr ⟨ht, hs.nodup⟩
  refine ⟨general s, _, (criticalEquations s.dimension (deformation s)).map
    (Equation.listing (s.dimension + 1)), ?_, rfl, ht, rfl, by simp [general, criticalEquations],
    polynomial_deformation hs _, ?_, fun x _ m => coeff_eulerOperator x m _, ?_, ?_, ?_⟩
  · rw [ofSupport, hs.checked]
    exact if_pos hs.smooth
  · rw [hpolynomials, polynomials_general hs ht]
    rfl
  · rw [hpolynomials]
    exact polynomials_general_one hs ht
  · rw [listings, hcheck]
    rfl
  · rw [hpolynomials, List.forall₂_map_left_iff, List.forall₂_map_right_iff, List.forall₂_same]
    intro e he
    have hexact := isExact_criticalEquations (isExact_deformation hs) e he
    obtain ⟨hnodup, hzero⟩ := ((isReduced_deformation hs).criticalEquations
      (isExact_deformation hs) _ e he).listing hexact (s.dimension + 1)
    refine ⟨Equation.total_listing hexact _ _, hnodup, hzero.imp_right fun hnone => ?_⟩
    obtain ⟨hnil, hlist⟩ := hnone
    exact ⟨by rw [hnil]; rfl, hlist⟩

end Exact

/-- A polynomial with a variable named like the deformation parameter, an exponent that stands twice, a
coefficient that is zero and coefficients that are no rationals. -/
noncomputable def repeated : Support ℝ :=
  ⟨["t", "y"], [[3, 0], [1, 1], [1, 1], [0, 3], [0, 0]],
    [.exact √(2 : ℚ), .exact (-3 : ℚ), .exact (-√(2 : ℚ)), .zero, .exact 1], true⟩

theorem ofSupport_eq_gradient_repeated : repeated.IsExact ∧ ∃ sys p, ofSupport repeated = .ok sys ∧
    sys.t = "t_" ∧ sys.polynomials = [p, X "t" * pderiv "t" p, X "y" * pderiv "y" p] := by
  have hs : repeated.IsExact := ⟨rfl, by decide, rfl, by decide, by decide,
    by simp [repeated, Number.isExact, Number.zero]⟩
  obtain ⟨sys, p, ls, hsys, -, -, -, -, -, hpolynomials, -⟩ := ofSupport_eq_gradient hs
  refine ⟨hs, sys, p, hsys, ?_, hpolynomials⟩
  have hgeneral : ofSupport repeated = .ok (general repeated) := rfl
  obtain rfl : general repeated = sys := Except.ok.inj (hgeneral.symm.trans hsys)
  decide +kernel

end EquationSystem

end Orthant
