import Mathlib
import Orthant.Proofs.Copositivity.Exponential
import Orthant.Proofs.Validation

/-! # The reduction to the least root

Scaling the negative part of a polynomial by `t` and asking for critical points at level zero gives,
on the open orthant, the critical points of the quotient of the positive and the negative part, with
`t` as the value. For a valid support that quotient has a least value, and the polynomial is
nonnegative on the orthant when this is at least 1. The coefficients are exact numbers of any ordered
field inside the reals, the reals themselves among them.
-/

namespace Orthant

open Finset

variable {n : ℕ} {K : Type} [Field K] [Exact K]

namespace Support

variable {s : Support K}

/-- Terms of a polynomial: exponents are not negative, coefficients are exact and not zero. -/
structure IsPolynomial (s : Support K) : Prop where
  lattice : s.IsLattice
  nonneg : ∀ a ∈ s.exponents, ∀ x ∈ a, 0 ≤ x
  exact : ∀ c ∈ s.coefficients, c.isExact
  ne_zero : ∀ c ∈ s.coefficients, c.value ≠ 0

theorem IsPolynomial.nonneg_terms (hs : s.IsPolynomial) : ∀ r ∈ s.terms, ∀ x ∈ r.1, 0 ≤ x := fun r hr =>
  hs.nonneg r.1 (List.of_mem_zip hr).1

theorem IsPolynomial.isNegative_iff [LinearOrder K] [SignedExact K] (hs : s.IsPolynomial)
    {r : Row K} (hr : r ∈ s.terms) : r.2.isNegative = true ↔ r.2.value < 0 := by
  rw [Number.eq_exact (hs.exact r.2 (List.of_mem_zip hr).2)]
  exact SignedExact.isNegative_iff _

theorem isPolynomial_of_ofPolynomial [Symbolic K] {q : Polynomial} (hq : q.IsExact K) (h : ofPolynomial q = .ok s) :
    s.IsPolynomial := by
  obtain ⟨hnames, -, hexps, hcs, hword⟩ := ofPolynomial_eq_ok hq h
  have hmem : ∀ a ∈ s.exponents, ∃ t ∈ q.terms, t.1.map Int.ofNat = a := fun a ha =>
    List.mem_map.mp (hexps ▸ ha)
  have hcoeff : ∀ c ∈ s.coefficients, ∃ r : K, r ≠ 0 ∧ c = .exact r := by
    intro c hc
    obtain ⟨t, ht, rfl⟩ := List.mem_map.mp (hcs ▸ hc)
    obtain ⟨r, hr, he⟩ := hq.coefficient t ht
    exact ⟨r, hr, by rw [he]; rfl⟩
  refine ⟨⟨fun a ha => ?_, hword⟩, fun a ha x hx => ?_, fun c hc => ?_, fun c hc => ?_⟩
  · obtain ⟨t, ht, rfl⟩ := hmem a ha
    rw [List.length_map, hq.length t ht, dimension, hnames, Polynomial.names, List.length_map]
  · obtain ⟨t, -, rfl⟩ := hmem a ha
    obtain ⟨k, -, rfl⟩ := List.mem_map.mp hx
    exact Int.natCast_nonneg k
  · obtain ⟨r, -, rfl⟩ := hcoeff c hc
    rfl
  · obtain ⟨r, hr, rfl⟩ := hcoeff c hc
    exact hr

end Support

variable [Algebra K ℝ]

/-! ## Real values -/

noncomputable def realMonomial (x : Fin n → ℝ) (a : List ℤ) : ℝ :=
  ∏ i : Fin n, x i ^ (a.getD i 0).toNat

/-- The value of an equation at real unknowns. -/
noncomputable def Equation.realValue (e : Equation K) (x : Fin n → ℝ) : ℝ :=
  e.total (realMonomial x)

/-- Real unknowns at which all equations vanish, the deformation parameter first. -/
def EquationSystem.IsSolution (sys : EquationSystem K) (t : ℝ) (x : Fin n → ℝ) : Prop :=
  ∀ e ∈ sys.equations, e.realValue (Fin.cons t x : Fin (n + 1) → ℝ) = 0

variable (K) in
/-- The value of a polynomial with real coefficients. -/
noncomputable def Polynomial.realValue [Symbolic K] (q : Polynomial) (x : Fin n → ℝ) : ℝ :=
  (q.terms.map fun t => algebraMap K ℝ ((Symbolic.number? t.2).getD .zero).value *
    ∏ i : Fin n, x i ^ t.1.getD i 0).sum

theorem realMonomial_cons (t : ℝ) (x : Fin n → ℝ) (z : ℤ) (a : List ℤ) :
    realMonomial (Fin.cons t x : Fin (n + 1) → ℝ) (z :: a) = t ^ z.toNat * realMonomial x a := by
  simp [realMonomial, Fin.prod_univ_succ]

theorem realMonomial_exp {a : List ℤ} (ha : ∀ x ∈ a, 0 ≤ x) (u : Fin n → ℝ) :
    realMonomial (fun i => Real.exp (u i)) a = Real.exp (realPoint n a ⬝ᵥ u) := by
  rw [realMonomial, dotProduct, Real.exp_sum]
  refine prod_congr rfl fun i _ => ?_
  have hnonneg : 0 ≤ a.getD i 0 := by
    by_cases hi : (i : ℕ) < a.length
    · exact ha _ (by simp [hi])
    · rw [List.getD_eq_default _ _ (by omega)]
  have hcast : realPoint n a i = ((a.getD i 0).toNat : ℝ) := by
    rw [realPoint, ← Int.cast_natCast, Int.toNat_of_nonneg hnonneg]
  rw [hcast, Real.exp_nat_mul]

def exponentAt (n : ℕ) (e : Equation K) (j : Fin e.length) : Fin n → ℝ := realPoint n e[j].1

noncomputable def coefficientAt (e : Equation K) (j : Fin e.length) : ℝ :=
  algebraMap K ℝ e[j].2.value

theorem total_exp {e : Equation K} (he : ∀ r ∈ e, ∀ x ∈ r.1, 0 ≤ x) (u : Fin n → ℝ) :
    e.realValue (fun i => Real.exp (u i)) = expSum (exponentAt n e) (coefficientAt e) u := by
  rw [Equation.realValue, Equation.total, expSum, ← Fin.sum_univ_fun_getElem]
  refine sum_congr rfl fun j _ => ?_
  rw [realMonomial_exp (he _ (List.getElem_mem _)), Algebra.smul_def]
  rfl

noncomputable def Equation.realSlope (e : Equation K) (i : ℕ) (x : Fin n → ℝ) : ℝ :=
  e.total fun a => ((a.getD i 0 : ℤ) : K) • realMonomial x a

theorem slope_exp {e : Equation K} (he : ∀ r ∈ e, ∀ x ∈ r.1, 0 ≤ x) (i : Fin n) (u : Fin n → ℝ) :
    e.realSlope i (fun i => Real.exp (u i)) =
      expSum (exponentAt n e) (fun j => coefficientAt e j * exponentAt n e j i) u := by
  rw [Equation.realSlope, Equation.total, expSum, ← Fin.sum_univ_fun_getElem]
  refine sum_congr rfl fun j _ => ?_
  rw [realMonomial_exp (he _ (List.getElem_mem _)), Algebra.smul_def, Algebra.smul_def, ← mul_assoc]
  simp [coefficientAt, exponentAt, realPoint]

theorem total_lead {e : Equation K} {z : ℤ} {c : ℝ} {f g : List ℤ → ℝ}
    (h : ∀ a, f (z :: a) = c * g a) :
    Equation.total (e.map fun r => (z :: r.1, r.2)) f = c * e.total g := by
  rw [Equation.total, Equation.total, List.map_map, ← List.sum_map_mul_left]
  congr 1
  refine List.map_congr_left fun r _ => ?_
  rw [Function.comp_apply, h, mul_smul_comm]

theorem Equation.continuous_realValue (e : Equation K) :
    Continuous fun x : Fin n → ℝ => e.realValue x := by
  induction e with
  | nil => exact continuous_const
  | cons r e ih =>
    have hmonomial : Continuous fun x : Fin n → ℝ => realMonomial x r.1 := by
      unfold realMonomial
      fun_prop
    simp only [Equation.realValue, Equation.total_cons, Algebra.smul_def] at ih ⊢
    exact (hmonomial.const_mul _).add ih

theorem Equation.realValue_nonneg_iff (e : Equation K) :
    (∀ x : Fin n → ℝ, (∀ i, 0 ≤ x i) → 0 ≤ e.realValue x) ↔
      ∀ u : Fin n → ℝ, 0 ≤ e.realValue fun i => Real.exp (u i) := by
  refine ⟨fun h u => h _ fun i => (Real.exp_pos _).le, fun h x hx => ?_⟩
  have hpath : Continuous fun ε : ℝ => e.realValue fun i => x i + ε :=
    e.continuous_realValue.comp (by fun_prop)
  have hlim : Filter.Tendsto (fun ε : ℝ => e.realValue fun i => x i + ε) (nhdsWithin 0 (Set.Ioi 0))
      (nhds (e.realValue x)) := by
    simpa using (hpath.tendsto 0).mono_left nhdsWithin_le_nhds
  refine ge_of_tendsto hlim (Filter.eventually_of_mem self_mem_nhdsWithin fun ε hε => ?_)
  have hpos : ∀ i, 0 < x i + ε := fun i => add_pos_of_nonneg_of_pos (hx i) hε
  simpa [Real.exp_log (hpos _)] using h fun i => Real.log (x i + ε)

namespace Support

variable {s : Support K} {p : Polytope}

theorem isSolution_general_iff [LawfulExact K] [CharZero K]
    (hexact : ∀ c ∈ s.coefficients, c.isExact) {t : ℝ}
    {x : Fin s.dimension → ℝ} : (EquationSystem.general s).IsSolution t x ↔
      Equation.realValue s.positiveTerms x + t * Equation.realValue s.negativeTerms x = 0 ∧
      ∀ i : Fin s.dimension, Equation.realSlope s.positiveTerms i x +
        t * Equation.realSlope s.negativeTerms i x = 0 := by
  let f := realMonomial (Fin.cons t x : Fin (s.dimension + 1) → ℝ)
  have hl : s.positiveExponents.length = s.positiveCoefficients.length := by
    simp [positiveExponents, positiveCoefficients]
  have hsum : ∀ (g h : List ℤ → ℝ), (∀ a, h (0 :: a) = 1 * g a) → (∀ a, h (1 :: a) = t * g a) →
      (Homotopy.assigned s.positiveExponents s.negativeExponents
        (s.positiveCoefficients ++ s.negativeCoefficients)).total h =
          Equation.total s.positiveTerms g + t * Equation.total s.negativeTerms g := by
    intro g h h₀ h₁
    rw [Homotopy.total_assigned_append hl, positive_zip, negative_zip, total_lead h₀, total_lead h₁,
      one_mul]
  have hlead : ∀ z a, f (z :: a) = t ^ z.toNat * realMonomial x a := realMonomial_cons t x
  have hequations : (EquationSystem.general s).IsSolution t x ↔
      ∀ y ∈ (EquationSystem.general s).equations.map (Equation.total · f), y = 0 := by
    rw [List.forall_mem_map]
    rfl
  rw [hequations, Homotopy.total_equations_general hexact, List.forall_mem_cons,
    List.forall_mem_map, hsum (realMonomial x) f (fun a => by simp [hlead]) fun a => by simp [hlead]]
  refine and_congr_right fun _ => ?_
  have hslope : ∀ i, (Homotopy.assigned s.positiveExponents s.negativeExponents
      (s.positiveCoefficients ++ s.negativeCoefficients)).total
        (fun a => ((a.getD (i + 1) 0 : ℤ) : K) • f a) =
      Equation.realSlope s.positiveTerms i x + t * Equation.realSlope s.negativeTerms i x := by
    intro i
    refine hsum _ _ (fun a => ?_) fun a => ?_
    · simp [hlead]
    · simp [hlead]
  simp only [hslope, List.mem_range]
  exact ⟨fun h i => h i i.2, fun h i hi => h ⟨i, hi⟩⟩

omit [Field K] [Algebra K ℝ] in
theorem range_exponentAt (s : Support K) (n : ℕ) :
    Set.range (exponentAt n s.positiveTerms) = pointSet n s.positiveExponents := by
  refine (range_getElem s.positiveTerms fun r => realPoint n r.1).trans ?_
  simp [pointSet, positiveExponents]

namespace IsPolynomial

section Signs

variable [LinearOrder K] [SignedExact K] [SMulPosStrictMono K ℝ] (hs : s.IsPolynomial)

include hs

theorem coefficientAt_pos (j : Fin s.positiveTerms.length) :
    0 < coefficientAt s.positiveTerms j := by
  obtain ⟨hr, hsign⟩ := List.mem_filter.mp (List.getElem_mem j.2 : s.positiveTerms[j] ∈ _)
  have hle := mt (hs.isNegative_iff hr).mpr (by simpa using hsign)
  have hne := hs.ne_zero _ (List.of_mem_zip hr).2
  exact algebraMap_pos ℝ (lt_of_le_of_ne (not_lt.mp hle) hne.symm)

theorem coefficientAt_neg (k : Fin s.negativeTerms.length) :
    coefficientAt s.negativeTerms k < 0 := by
  obtain ⟨hr, hsign⟩ := List.mem_filter.mp (List.getElem_mem k.2 : s.negativeTerms[k] ∈ _)
  exact (algebraMap_strictMono ℝ ((hs.isNegative_iff hr).mp hsign)).trans_eq (map_zero _)

end Signs

variable (hs : s.IsPolynomial)

include hs

/-- In logarithms solutions are places where sums of exponentials and their derivatives are in the
proportion `t`. -/
theorem isSolution_exp_iff [LawfulExact K] [CharZero K] {t : ℝ} {u : Fin s.dimension → ℝ} :
    (EquationSystem.general s).IsSolution t (fun i => Real.exp (u i)) ↔
      expSum (exponentAt _ s.positiveTerms) (coefficientAt s.positiveTerms) u =
        t * expSum (exponentAt _ s.negativeTerms) (fun k => -coefficientAt s.negativeTerms k) u ∧
      ∀ i : Fin s.dimension, expSum (exponentAt _ s.positiveTerms)
          (fun j => coefficientAt s.positiveTerms j * exponentAt _ s.positiveTerms j i) u =
        t * expSum (exponentAt _ s.negativeTerms)
          (fun k => -coefficientAt s.negativeTerms k * exponentAt _ s.negativeTerms k i) u := by
  have hp : ∀ r ∈ s.positiveTerms, ∀ x ∈ r.1, 0 ≤ x := fun r hr =>
    hs.nonneg_terms r (List.mem_of_mem_filter hr)
  have hn : ∀ r ∈ s.negativeTerms, ∀ x ∈ r.1, 0 ≤ x := fun r hr =>
    hs.nonneg_terms r (List.mem_of_mem_filter hr)
  simp only [isSolution_general_iff hs.exact, total_exp hp, total_exp hn, slope_exp hp,
    slope_exp hn, neg_mul, expSum_neg, mul_neg, ← eq_neg_iff_add_eq_zero]

theorem realValue_exp (u : Fin s.dimension → ℝ) :
    Equation.realValue s.terms (fun i => Real.exp (u i)) =
      expSum (exponentAt _ s.positiveTerms) (coefficientAt s.positiveTerms) u -
        expSum (exponentAt _ s.negativeTerms) (fun k => -coefficientAt s.negativeTerms k) u := by
  have hp := total_exp (fun r hr => hs.nonneg_terms r (List.mem_of_mem_filter hr) :
    ∀ r ∈ s.positiveTerms, ∀ x ∈ r.1, 0 ≤ x) u
  have hn := total_exp (fun r hr => hs.nonneg_terms r (List.mem_of_mem_filter hr) :
    ∀ r ∈ s.negativeTerms, ∀ x ∈ r.1, 0 ≤ x) u
  rw [expSum_neg, sub_neg_eq_add, ← hp, ← hn]
  exact Equation.total_terms s _

variable {facets : Polytope.FacetProgram} (hv : (s.validate facets).2 = .ok p)
  (hcomplete : s.newton.FacetsComplete facets)

include hv hcomplete

omit [Algebra K ℝ] in
theorem mem_interior_exponentAt (k : Fin s.negativeTerms.length) :
    exponentAt s.dimension s.negativeTerms k ∈
      interior (convexHull ℝ (Set.range (exponentAt s.dimension s.positiveTerms))) := by
  rw [range_exponentAt, convexHull_positive hs.lattice hv hcomplete]
  exact mem_interior_of_validate hs.lattice hv hcomplete
    (List.mem_map_of_mem (List.getElem_mem k.2))

/-- The general system of a valid polynomial has a least root among its positive solutions, all of
their roots are positive, and the polynomial is nonnegative on the orthant when the least is at
least 1. -/
theorem exists_least_root [LinearOrder K] [IsStrictOrderedRing K] [SMulPosStrictMono K ℝ]
    [LawfulExact K] [SignedExact K] : ∃ t₀,
    IsLeast { t | ∃ x : Fin s.dimension → ℝ, (∀ i, 0 < x i) ∧
      (EquationSystem.general s).IsSolution t x } t₀ ∧
    (∀ t (x : Fin s.dimension → ℝ), (∀ i, 0 < x i) →
      (EquationSystem.general s).IsSolution t x → 0 < t) ∧
    ((∀ x : Fin s.dimension → ℝ, (∀ i, 0 ≤ x i) → 0 ≤ Equation.realValue s.terms x) ↔ 1 ≤ t₀) := by
  have hα := hs.coefficientAt_pos
  have hβ : ∀ k, 0 < -coefficientAt s.negativeTerms k := fun k =>
    neg_pos.mpr (hs.coefficientAt_neg k)
  have hK : Nonempty (Fin s.negativeTerms.length) := by
    obtain ⟨-, hne, -⟩ := validate_eq_ok hv
    rw [negativeExponents, Ne, List.map_eq_nil_iff] at hne
    exact ⟨⟨0, List.length_pos_iff.mpr hne⟩⟩
  obtain ⟨t₀, u₀, hvalue, hslope, hle⟩ := exists_least_quotient hα hβ
    (hs.mem_interior_exponentAt hv hcomplete)
  have hJ : Nonempty (Fin s.positiveTerms.length) := by
    obtain ⟨ε, -, hahead⟩ := exists_ahead (hs.mem_interior_exponentAt hv hcomplete hK.some)
    exact ⟨(hahead 0).choose⟩
  have hP := expSum_pos (a := exponentAt s.dimension s.positiveTerms) hα
  have hN := expSum_pos (a := exponentAt s.dimension s.negativeTerms) hβ
  have hlog : ∀ x : Fin s.dimension → ℝ, (∀ i, 0 < x i) →
      x = fun i => Real.exp (Real.log (x i)) := fun x hx =>
    funext fun i => (Real.exp_log (hx i)).symm
  have hsolution : ∀ t (x : Fin s.dimension → ℝ), (∀ i, 0 < x i) →
      (EquationSystem.general s).IsSolution t x → t₀ ≤ t ∧ 0 < t := by
    intro t x hx h
    rw [hlog x hx, hs.isSolution_exp_iff] at h
    have hpos := hN fun i => Real.log (x i)
    constructor
    · exact le_of_mul_le_mul_right ((hle _).trans_eq h.1) hpos
    · exact pos_of_mul_pos_left (h.1 ▸ hP _) hpos.le
  refine ⟨t₀, ⟨⟨fun i => Real.exp (u₀ i), fun i => Real.exp_pos _,
    hs.isSolution_exp_iff.mpr ⟨hvalue, hslope⟩⟩, ?_⟩, fun t x hx h => (hsolution t x hx h).2, ?_⟩
  · rintro t ⟨x, hx, h⟩
    exact (hsolution t x hx h).1
  · rw [Equation.realValue_nonneg_iff]
    simp only [hs.realValue_exp, sub_nonneg]
    constructor
    · intro h
      refine le_of_mul_le_mul_right ?_ (hN u₀)
      rw [one_mul, ← hvalue]
      exact h u₀
    · intro h u
      exact (le_mul_of_one_le_left (hN u).le h).trans (hle u)

end IsPolynomial

end Support

/-! ## Polynomials -/

namespace Support

variable [Symbolic K] {q : Polynomial} {s : Support K} {p : Polytope}

theorem realValue_terms (hq : q.IsExact K) (h : ofPolynomial q = .ok s) {n : ℕ} (x : Fin n → ℝ) :
    Equation.realValue s.terms x = q.realValue K x := by
  obtain ⟨-, -, hexps, hcs, -⟩ := ofPolynomial_eq_ok hq h
  rw [Equation.realValue, terms, hexps, hcs, List.zip_map', Equation.total, List.map_map,
    Polynomial.realValue]
  congr 1
  refine List.map_congr_left fun t _ => ?_
  rw [Function.comp_apply, Algebra.smul_def, realMonomial]
  congr 1
  refine prod_congr rfl fun i _ => ?_
  have hget : ((t.1.map Int.ofNat).getD i 0).toNat = t.1.getD i 0 := by
    simp only [List.getD_eq_getElem?_getD, List.getElem?_map]
    cases t.1[(i : ℕ)]? <;> rfl
  rw [hget]

/-- The critical equations decide whether a polynomial with a valid support is nonnegative on the
orthant: they have a solution with positive unknowns, `t` is positive at all of these, there is a
least such `t`, and the polynomial is nonnegative when it is at least 1. -/
theorem nonneg_iff_one_le_least_root [LinearOrder K] [IsStrictOrderedRing K]
    [SMulPosStrictMono K ℝ] [LawfulExact K] [SignedExact K] {facets : Polytope.FacetProgram}
    (hq : q.IsExact K) (hs : ofPolynomial q = .ok s) (hv : (s.validate facets).2 = .ok p)
    (hcomplete : s.newton.FacetsComplete facets) :
    ∃ sys t₀, EquationSystem.ofSupport s = .ok sys ∧
      IsLeast { t | ∃ x : Fin s.dimension → ℝ, (∀ i, 0 < x i) ∧ sys.IsSolution t x } t₀ ∧
      (∀ t (x : Fin s.dimension → ℝ), (∀ i, 0 < x i) → sys.IsSolution t x → 0 < t) ∧
      ((∀ x : Fin s.dimension → ℝ, (∀ i, 0 ≤ x i) → 0 ≤ q.realValue K x) ↔ 1 ≤ t₀) := by
  have hsystem : EquationSystem.ofSupport s = .ok (EquationSystem.general s) := by
    refine bind_eq_ok.mpr ⟨s, (validate_eq_ok hv).1, if_pos (ofPolynomial_eq_ok hq hs).2.1⟩
  obtain ⟨t₀, hleast, hpos, hnonneg⟩ :=
    (isPolynomial_of_ofPolynomial hq hs).exists_least_root hv hcomplete
  simp only [realValue_terms hq hs] at hnonneg
  exact ⟨_, t₀, hsystem, hleast, hpos, hnonneg⟩

theorem nonneg_iff_one_le_least_root_rootCubic : ∃ q, ofPolynomial q = .ok Homotopy.rootCubic ∧
    Homotopy.rootCubic.validate.2 = .ok Homotopy.cubic.newton ∧
    ∃ t₀, IsLeast { t | ∃ x : Fin 2 → ℝ, (∀ i, 0 < x i) ∧
        (EquationSystem.general Homotopy.rootCubic).IsSolution t x } t₀ ∧
      ((∀ x : Fin 2 → ℝ, (∀ i, 0 ≤ x i) → 0 ≤ q.realValue ℝ x) ↔ 1 ≤ t₀) := by
  let q : Polynomial := ⟨[.name "t", .name "p0"],
    [([3, 0], .power (.ofInt 2) (.ofRat (1 / 2))), ([1, 1], .ofInt (-3)), ([0, 3], .ofInt 1),
      ([0, 0], .ofInt 1)]⟩
  have hroot : Symbolic.number? (.power (.ofInt 2) (.ofRat (1 / 2))) = some (.exact √2) := by
    change (Form.real? (.power (.number (.exact 2)) (.number (.exact (1 / 2))))).map _ = _
    norm_num [Form.real?, Real.sqrt_eq_rpow]
  have hint : ∀ n : ℤ, Symbolic.number? (.ofInt n) = some (.exact (n : ℝ)) := fun n => by
    rw [← Rat.cast_intCast]
    rfl
  have hq : q.IsExact ℝ := by
    refine ⟨by decide, by decide, fun t ht => ?_⟩
    fin_cases ht
    · exact ⟨√2, by norm_num, hroot⟩
    · exact ⟨(-3 : ℤ), by norm_num, hint _⟩
    · exact ⟨(1 : ℤ), by norm_num, hint _⟩
    · exact ⟨(1 : ℤ), by norm_num, hint _⟩
  have hs : ofPolynomial q = .ok Homotopy.rootCubic := by
    rw [ofPolynomial_of_words hq (by simp [q]) (by decide)]
    simp only [q, Homotopy.rootCubic, List.map_cons, List.map_nil, hroot, hint, Option.getD_some,
      Int.cast_neg, Int.cast_ofNat, Int.cast_one, Rat.cast_neg, Rat.cast_ofNat]
    rfl
  obtain ⟨sys, t₀, hsys, hleast, -, hiff⟩ :=
    nonneg_iff_one_le_least_root hq hs validate_rootCubic facetsComplete_cubic
  obtain rfl := Except.ok.inj hsys
  exact ⟨q, hs, validate_rootCubic, t₀, hleast, hiff⟩

end Support

end Orthant
