import Mathlib
import Orthant.Proofs.EquationSystem.Falling
import Orthant.Proofs.EquationSystem.Homotopy

/-! # Specialization and evaluation

The parameters of a system may be fixed before its unknowns or together with them. The values are the
same, and the rows of the specialized system are those of the parametric one with the parameters
multiplied into the coefficients, like ones collected and zero ones dropped.
-/

namespace Orthant

open EquationSystem

variable {K : Type} [Field K] [Exact K]

namespace Equation

/-- The coefficient of an exponent of the first `n` names when the others have values: the rows that
hold it, each times the powers of the values. -/
def specializedCoefficient (e : Equation K) (n : ℕ) (values : List K) (a : List ℤ) : K :=
  ((e.filter fun r => r.1.take n = a).map fun r =>
    r.2.value * weight (values.map .exact) (r.1.drop n)).sum

theorem specializedCoefficient_eq_total (e : Equation K) (n : ℕ) (values : List K) (a : List ℤ) :
    e.specializedCoefficient n values a = e.total fun b =>
      weight (values.map .exact) (b.drop n) • if b.take n = a then (1 : K) else 0 := by
  induction e with
  | nil => rfl
  | cons r e ih =>
    rw [total_cons, ← ih, specializedCoefficient, specializedCoefficient, List.filter_cons]
    split
    case isTrue h =>
      rw [List.map_cons, List.sum_cons, if_pos (of_decide_eq_true h), smul_eq_mul, smul_eq_mul,
        mul_one]
    case isFalse h =>
      rw [if_neg fun h' => h (decide_eq_true h'), smul_zero, smul_zero, zero_add]

end Equation

namespace EquationSystem

variable {s sys : EquationSystem K} {values : List K} {e : Equation K}

/-- An equation with its parameters multiplied into the coefficients. -/
def specialized (s : EquationSystem K) (values : List K) (e : Equation K) : Equation K :=
  Equation.collect s.unknowns.length
    ((s.byParameter e).map (specializeRow s.unknowns.length (values.map .exact)))

theorem specialize_eq_ok_iff : s.specialize (values.map .exact) = .ok sys ↔
    values.length = s.parameters.length ∧
      sys = ⟨s.unknowns, [], s.equations.map (s.specialized values)⟩ := by
  rw [specialize, List.length_map]
  split
  case isTrue h =>
    constructor
    · rintro ⟨⟩
      exact ⟨h, rfl⟩
    · rintro ⟨-, rfl⟩
      rfl
  case isFalse h => simp [h]

/-! ## Specialized equations -/

section Equation

variable (he : e.isExact)

include he

theorem exists_of_mem_specializeRows {r : Row K} {n : ℕ}
    (hr : r ∈ (s.byParameter e).map (specializeRow n (values.map .exact))) :
    r.2.isExact ∧ ∃ r' ∈ e, r.1 = r'.1.take n := by
  obtain ⟨r', hr', rfl⟩ := List.mem_map.mp hr
  have hmem : r' ∈ e := (List.mergeSort_perm _ _).mem_iff.mp hr'
  rw [specializeRow_exact (Equation.isExact_iff.mp he r' hmem) (by simp [Number.isExact])]
  exact ⟨rfl, r', hmem, rfl⟩

theorem isExact_specialized : (s.specialized values e).isExact :=
  Equation.isExact_collect (fun _ hr => (exists_of_mem_specializeRows he hr).1) _

theorem isReduced_specialized [LawfulExact K] : (s.specialized values e).IsReduced :=
  Equation.isReduced_collect (fun _ hr => (exists_of_mem_specializeRows he hr).1) _

theorem exists_of_mem_specialized {r : Row K} (hr : r ∈ s.specialized values e) :
    ∃ r' ∈ e, r.1 = r'.1.take s.unknowns.length := by
  obtain ⟨r', hr', h⟩ := Equation.exponent_of_mem_collect
    (fun _ hr => (exists_of_mem_specializeRows he hr).1) hr
  obtain ⟨-, r'', hr'', h'⟩ := exists_of_mem_specializeRows he hr'
  exact ⟨r'', hr'', h.trans h'⟩

theorem length_of_mem_specialized (hlen : ∀ r ∈ e, r.1.length = s.width) :
    ∀ r ∈ s.specialized values e, r.1.length = s.unknowns.length := by
  intro r hr
  obtain ⟨r', hr', h⟩ := exists_of_mem_specialized he hr
  rw [h, List.length_take, hlen r' hr', width]
  omega

theorem lists_specialized [LawfulExact K] (hlen : ∀ r ∈ e, r.1.length = s.width) (k : ℕ) :
    ((s.specialized values e).listing s.unknowns.length).Lists s.unknowns.length
      ((e.listing k).specializedCoefficient s.unknowns.length values) := by
  have hcoefficient : (e.listing k).specializedCoefficient s.unknowns.length values =
      (s.specialized values e).coefficientAt := by
    funext a
    rw [Equation.specializedCoefficient_eq_total, Equation.total_listing he,
      Equation.coefficientAt, specialized, total_specialized he (by simp [Number.isExact])]
  rw [hcoefficient]
  exact (isReduced_specialized he).lists_listing (isExact_specialized he)
    (length_of_mem_specialized he hlen)

theorem total_weight_specialized [LawfulExact K] (hlen : ∀ r ∈ e, r.1.length = s.width) {point : List K}
    (hpoint : point.length = s.unknowns.length) :
    (s.specialized values e).total (weight (point.map .exact)) =
      e.total (weight ((point ++ values).map .exact)) := by
  rw [specialized, total_specialized he (by simp [Number.isExact])]
  refine Equation.total_congr fun r hr => ?_
  have htake : (r.1.take s.unknowns.length).length = (point.map Number.exact).length := by
    rw [List.length_take, hlen r hr, width, List.length_map, hpoint]
    omega
  rw [List.map_append, smul_eq_mul, mul_comm, ← weight_append _ _ htake, List.take_append_drop]

end Equation

/-! ## Specialized systems -/

section System

variable (hspec : s.specialize (values.map .exact) = .ok sys)
  (hexact : ∀ e ∈ s.equations, e.isExact)

include hspec hexact

theorem isExact_of_specialize : ∀ e ∈ sys.equations, e.isExact := by
  obtain ⟨-, rfl⟩ := specialize_eq_ok_iff.mp hspec
  exact List.forall_mem_map.mpr fun e he => isExact_specialized (hexact e he)

theorem check_of_specialize (h : s.check = .ok ()) : sys.check = .ok () := by
  obtain ⟨-, rfl⟩ := specialize_eq_ok_iff.mp hspec
  obtain ⟨hnames, hnonneg⟩ := check_eq_ok_iff.mp h
  apply check_eq_ok
  · rw [List.append_nil]
    exact hnames.of_append_left
  · refine List.forall_mem_map.mpr fun e he r hr k hk => ?_
    obtain ⟨r', hr', heq⟩ := exists_of_mem_specialized (hexact e he) hr
    exact hnonneg e he r' hr' k (List.mem_of_mem_take (heq ▸ hk))

variable (hrow : ∀ e ∈ s.equations, ∀ r ∈ e, r.1.length = s.width)

include hrow

theorem exactValues_specialize [LawfulExact K] {point : List K}
    (hpoint : point.length = s.unknowns.length) : ∃ results,
      sys.exactValues point [] = .ok results ∧ s.exactValues point values = .ok results := by
  obtain ⟨hl, rfl⟩ := specialize_eq_ok_iff.mp hspec
  refine ⟨_, ?_, exactValues_known hpoint hl hrow⟩
  refine (exactValues_known (s := ⟨s.unknowns, [], s.equations.map (s.specialized values)⟩) hpoint rfl
    (List.forall_mem_map.mpr fun e he => length_of_mem_specialized (hexact e he) (hrow e he))).trans ?_
  rw [List.map_map, List.append_nil]
  exact congrArg _ (List.map_congr_left fun e he =>
    total_weight_specialized (hexact e he) (hrow e he) hpoint)

theorem isDefinedAt_of_specialize {point : List K} (hpoint : point.length = s.unknowns.length)
    (h : s.isDefinedAt point values) : sys.isDefinedAt point [] := by
  have hexact' := isExact_of_specialize hspec hexact
  obtain ⟨hl, rfl⟩ := specialize_eq_ok_iff.mp hspec
  refine isDefinedAt_iff.mpr fun e' he' => ⟨hexact' e' he', fun r hr f hf => ?_⟩
  obtain ⟨e, he, rfl⟩ := List.mem_map.mp he'
  obtain ⟨r', hr', hrow'⟩ := exists_of_mem_specialized (hexact e he) hr
  have htake : (r'.1.take s.unknowns.length).length = (point.map some).length := by
    rw [List.length_take, hrow e he r' hr', width, List.length_map, hpoint]
    omega
  refine (isDefinedAt_iff.mp h e he).2 r' hr' f ?_
  rw [assignment_known (s := ⟨s.unknowns, [], _⟩) hpoint rfl, List.append_nil, hrow'] at hf
  rw [assignment_known hpoint hl, ← List.take_append_drop s.unknowns.length r'.1, List.map_append,
    List.zip_append htake]
  exact List.mem_append_left _ hf

theorem terms_specialize [LawfulExact K] {ls : List (Equation K)} (hls : s.listings = .ok ls) :
    ∃ ls', sys.listings = .ok ls' ∧
      sys.terms = .ok (ls'.map fun e => (e.map Prod.fst, e.map fun r => r.2.toDouble)) ∧
      List.Forall₂ (fun l l' => l'.Lists s.unknowns.length
        (l.specializedCoefficient s.unknowns.length values)) ls ls' := by
  obtain ⟨hcheck, rfl⟩ := listings_eq_ok_iff.mp hls
  have hlistings := listings_eq_ok_iff.mpr ⟨check_of_specialize hspec hexact hcheck, rfl⟩
  refine ⟨_, hlistings, ?_, ?_⟩
  · rw [terms, hlistings]
    rfl
  · obtain ⟨-, rfl⟩ := specialize_eq_ok_iff.mp hspec
    rw [List.map_map, List.forall₂_map_left_iff, List.forall₂_map_right_iff, List.forall₂_same]
    exact fun e he => lists_specialized (hexact e he) (hrow e he) _

end System

/-- What is given for exact numbers: forms of these numbers. -/
def Gives [Symbolic K] (given : List Value) (values : List K) : Prop :=
  List.Forall₂ (fun x v => ∃ f, x.toForm = .ok f ∧ Symbolic.number? f = some (.exact v)) given values

theorem gives_rational [LawfulExact K] [Symbolic K] (values : List ℚ) :
    Gives (values.map fun q => .real (.rational q)) (values.map fun q : ℚ => (q : K)) := by
  rw [Gives, List.forall₂_map_left_iff, List.forall₂_map_right_iff, List.forall₂_same]
  intro q _
  exact ⟨_, rfl, (Symbolic.number?_exact q).trans (by rw [LawfulExact.ofRat_eq])⟩

omit [Field K] in
theorem replacements_of_gives [Symbolic K] {given : List Value} (h : Gives given values)
    {names : List String} (hl : values.length = names.length) : ∃ rs,
      replacements names given = .ok rs ∧
        rs.mapM (fun r => Symbolic.number? r.2) = some (values.map .exact) := by
  induction h generalizing names with
  | nil =>
    obtain rfl := List.length_eq_zero_iff.mp hl.symm
    exact ⟨[], rfl, rfl⟩
  | cons hx _ ih =>
    obtain ⟨name, names, rfl⟩ := List.exists_cons_of_length_eq_add_one hl.symm
    obtain ⟨f, hform, hnumber⟩ := hx
    obtain ⟨rs, hrs, hnumbers⟩ := ih (by simpa using hl)
    refine ⟨(name, f) :: rs, ?_, ?_⟩
    · rw [replacements, List.zip_cons_cons, List.mapM_cons]
      exact bind_eq_ok.mpr ⟨_, bind_eq_ok.mpr ⟨f, hform, rfl⟩, bind_eq_ok.mpr ⟨rs, hrs, rfl⟩⟩
    · simp [List.mapM_cons, hnumber, hnumbers]

theorem specializeValues_of_gives [Symbolic K] (s : EquationSystem K) {given : List Value}
    (h : Gives given values) :
    s.specializeValues given = (s.specialize (values.map .exact)).bind listing := by
  have hlength := h.length_eq
  rw [specializeValues, hlength]
  split
  case isTrue hl =>
    rw [specialize, List.length_map, if_neg hl]
    rfl
  case isFalse hl =>
    obtain ⟨rs, hrs, hnumbers⟩ := replacements_of_gives h (not_not.mp hl)
    simp only [hrs, bind, Except.bind, hnumbers]

end EquationSystem

namespace Homotopy

variable {s : Support K} {program : Balance.Program} {h : Homotopy K}

theorem check_parametric (hlen : ∀ a ∈ s.exponents, a.length = s.dimension)
    (hnonneg : ∀ a ∈ s.exponents, ∀ x ∈ a, 0 ≤ x) (hnames : s.names.Nodup) :
    (parametric s).check = .ok () := by
  apply EquationSystem.check_eq_ok
  · exact (nodup_parametric_iff s).mpr hnames
  · exact fun e he r hr => (parametric_rows hlen hnonneg e he r hr).2

section Defined

variable [LawfulExact K] (hlen : ∀ a ∈ s.exponents, a.length = s.dimension) {t : K} {x values : List K}
  (hx : x.length = s.dimension) (hdefined : ∀ a ∈ s.exponents, ∀ f ∈ a.zip x, f.1 < 0 → f.2 ≠ 0)

include hlen hx hdefined

theorem defined_of_mem_parametric {e : Equation K} (he : e ∈ (parametric s).equations) {r : Row K}
    (hr : r ∈ e) : ∀ f ∈ r.1.zip (((t :: x) ++ values).map some), ∀ v ∈ f.2,
      0 ≤ f.1 ∨ Exact.isZero v = false := by
  obtain ⟨a, ha, lead, i, hlead, hrow⟩ := exists_of_mem_parametric he hr
  rw [hrow, List.map_append, List.zip_append (by simp [hlen a ha, hx])]
  rintro ⟨n, _⟩ hf v rfl
  rcases List.mem_append.mp hf with hf | hf
  · rw [List.map_cons, List.zip_cons_cons] at hf
    rcases List.mem_cons.mp hf with hf | hf
    · exact .inl ((Prod.mk.inj hf).1 ▸ hlead)
    · rw [or_iff_not_imp_left, not_le, ← Bool.not_eq_true, LawfulExact.isZero_iff]
      rw [List.zip_map_right] at hf
      obtain ⟨f, hmem, heq⟩ := List.mem_map.mp hf
      obtain ⟨rfl, hv⟩ := Prod.mk.inj heq
      obtain rfl := Option.some.inj hv
      exact hdefined a ha f hmem
  · exact .inl (unitRow_nonneg _ _ n (List.of_mem_zip hf).1)

end Defined

/-- Specialization commutes with evaluation. It fails exactly if the count of values is not that of the
parameters, however the values are given. Else it keeps the unknowns, has no parameters, and has at
each point the values that the parametric system has at the point and the values; where no variable
with a negative exponent is zero, rational numbers are evaluated to these values before they are
rounded. Its terms are those of the parametric system with the values multiplied in. -/
theorem specialize_commutes [LawfulExact K] [Symbolic K] (hb : build s program = .ok h)
    (hlen : ∀ a ∈ s.exponents, a.length = s.dimension) (values : List K) :
    (values.length ≠ h.system.parameters.length →
      h.system.specialize (values.map .exact) =
        .error (.parameterCount h.system.parameters.length values.length)) ∧
    (∀ given, EquationSystem.Gives given values → h.system.specializeValues given =
      (h.system.specialize (values.map .exact)).bind EquationSystem.listing) ∧
    ((∀ a ∈ s.exponents, ∀ x ∈ a, 0 ≤ x) → s.names.Nodup → ∃ ls, h.system.listings = .ok ls) ∧
    (values.length = h.system.parameters.length →
      ∃ sys, h.system.specialize (values.map .exact) = .ok sys ∧
        sys.unknowns = h.system.unknowns ∧ sys.parameters = [] ∧
        (∀ point : List K, point.length = h.system.unknowns.length → ∃ results,
          sys.exactValues point [] = .ok results ∧
          h.system.exactValues point values = .ok results ∧
          ∀ ps qs : List ℚ, point = ps.map (fun q : ℚ => (q : K)) →
            values = qs.map (fun q : ℚ => (q : K)) →
            (∀ a ∈ s.exponents, ∀ f ∈ a.zip point.tail, f.1 < 0 → f.2 ≠ 0) →
            sys.evaluate (ps.map fun q => .real (.rational q)) [] =
              .ok (results.map fun x => ⟨Exact.toDouble x, .zero⟩) ∧
            h.system.evaluate (ps.map fun q => .real (.rational q))
                (qs.map fun q => .real (.rational q)) =
              .ok (results.map fun x => ⟨Exact.toDouble x, .zero⟩)) ∧
        ∀ ls, h.system.listings = .ok ls → ∃ ls', sys.listings = .ok ls' ∧
          sys.terms = .ok (ls'.map fun e => (e.map Prod.fst, e.map fun r => r.2.toDouble)) ∧
          List.Forall₂ (fun l l' => l'.Lists h.system.unknowns.length
            (l.specializedCoefficient h.system.unknowns.length values)) ls ls') := by
  obtain ⟨b, rest, w, -, -, rfl⟩ := build_eq_ok hb
  have hexact : ∀ e ∈ (parametric s).equations, e.isExact :=
    EquationSystem.isExact_criticalEquations isExact_deformation
  have hrow := length_of_mem_parametric hlen
  rw [show (ofWeights s w).system = parametric s from rfl]
  refine ⟨fun hl => ?_, fun given => EquationSystem.specializeValues_of_gives _,
    fun hnonneg hnames => ?_, fun hl => ?_⟩
  · rw [EquationSystem.specialize, List.length_map]
    exact if_neg hl
  · exact ⟨_, EquationSystem.listings_eq_ok_iff.mpr ⟨check_parametric hlen hnonneg hnames, rfl⟩⟩
  · have hspec := EquationSystem.specialize_eq_ok_iff.mpr ⟨hl, rfl⟩
    refine ⟨_, hspec, rfl, rfl, fun point hpoint => ?_, fun ls hls =>
      EquationSystem.terms_specialize hspec hexact hrow hls⟩
    obtain ⟨results, hfirst, hboth⟩ :=
      EquationSystem.exactValues_specialize hspec hexact hrow hpoint
    refine ⟨results, hfirst, hboth, ?_⟩
    rintro ps qs rfl rfl hdefined
    have hpoint : ps.length = (parametric s).unknowns.length := by simpa using hpoint
    have hl : qs.length = (parametric s).parameters.length := by simpa using hl
    have hparametric : (parametric s).isDefinedAt (ps.map fun q : ℚ => (q : K))
        (qs.map fun q : ℚ => (q : K)) := by
      obtain ⟨t, x, rfl⟩ := List.exists_cons_of_length_eq_add_one hpoint
      refine EquationSystem.isDefinedAt_iff.mpr fun e he => ⟨hexact e he, fun r hr => ?_⟩
      rw [EquationSystem.assignment_known (by simpa using hpoint) (by simpa using hl)]
      exact defined_of_mem_parametric hlen (by simpa [parametric, Support.dimension] using hpoint)
        hdefined he hr
    exact ⟨EquationSystem.evaluate_rational hpoint (rfl : ([] : List ℚ).length = 0)
        (EquationSystem.isDefinedAt_of_specialize hspec hexact hrow (by simpa using hpoint)
          hparametric) hfirst,
      EquationSystem.evaluate_rational hpoint hl hparametric hboth⟩

theorem specialize_commutes_rootCubic : ∃ h sys, build rootCubic = .ok h ∧
    h.system.specialize ([√2, 0, 1 / 2, -3].map .exact) = .ok sys ∧
      sys.exactValues [1 / 3, √2, 5] [] =
        h.system.exactValues [1 / 3, √2, 5] [√2, 0, 1 / 2, -3] ∧
      h.system.specializeValues ([2, 0, 1 / 2, -3].map fun q => .real (.rational q)) =
        (h.system.specialize (([2, 0, 1 / 2, -3].map fun q : ℚ => (q : ℝ)).map .exact)).bind
          EquationSystem.listing ∧
      ∃ ls ls', h.system.listings = .ok ls ∧ sys.listings = .ok ls' ∧
        List.Forall₂ (fun l l' => l'.Lists 3 (l.specializedCoefficient 3 [√2, 0, 1 / 2, -3])) ls ls' := by
  obtain ⟨-, -, hlistings, hok⟩ := specialize_commutes build_rootCubic (by decide) [√2, 0, 1 / 2, -3]
  obtain ⟨ls, hls⟩ := hlistings (by decide) (by decide)
  have hcount : (parametric rootCubic).parameters.length = 4 := by
    rw [length_parameters, Support.positiveExponents, Support.negativeExponents,
      positiveTerms_rootCubic, negativeTerms_rootCubic]
    rfl
  obtain ⟨sys, hspec, -, -, hvalues, hterms⟩ := hok hcount.symm
  obtain ⟨results, hfirst, hboth, -⟩ := hvalues [1 / 3, √2, 5] rfl
  obtain ⟨ls', hls', -, hlists⟩ := hterms ls hls
  obtain ⟨-, hgiven, -, -⟩ := specialize_commutes build_rootCubic (by decide)
    ([2, 0, 1 / 2, -3].map fun q : ℚ => (q : ℝ))
  exact ⟨_, sys, build_rootCubic, hspec, hfirst.trans hboth.symm,
    hgiven _ (EquationSystem.gives_rational _), ls, ls', hls, hls', hlists⟩

end Homotopy

end Orthant
