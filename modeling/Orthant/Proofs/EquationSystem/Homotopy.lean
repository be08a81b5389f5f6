import Mathlib
import Orthant.EquationSystem.Homotopy
import Orthant.Proofs.Except
import Orthant.Proofs.EquationSystem.Evaluation
import Orthant.Proofs.EquationSystem.Fresh
import Orthant.Proofs.Number.Real
import Orthant.Proofs.Polytope.Balance
import Orthant.Proofs.Support

/-! # The ends of the homotopy

The parametric system has one parameter for each term, so giving values to the parameters gives the
terms coefficients. At the true coefficients it is the general system of the support, and at the
balance weights the point of all ones solves it exactly.
-/

namespace Orthant

open Finset MvPolynomial

variable {K M : Type} [Field K] [Exact K] [AddCommGroup M] [Module K M]

namespace Homotopy

/-! ## Rows of the parametric system -/

@[simp] theorem length_unitRow (count i : ℕ) : (unitRow count i).length = count := by
  simp [unitRow]

theorem getD_unitRow {count i j : ℕ} (hj : j < count) :
    (unitRow count i).getD j 0 = if i = j then 1 else 0 := by
  simp [unitRow, hj]

theorem unitRow_nonneg (count i : ℕ) : ∀ x ∈ unitRow count i, 0 ≤ x := by
  intro x hx
  obtain ⟨j, -, rfl⟩ := List.mem_map.mp hx
  split <;> decide

theorem weight_unitRow {values : List (Number K)} {i : ℕ} (hi : i < values.length) :
    EquationSystem.weight values (unitRow values.length i) = (values.getD i .zero).value := by
  rw [EquationSystem.weight_eq_prod (by simp), length_unitRow,
    prod_eq_single_of_mem i (mem_range.mpr hi)]
  · rw [getD_unitRow hi, if_pos rfl, zpow_one]
  · intro j hj hji
    rw [getD_unitRow (mem_range.mp hj), if_neg hji.symm, zpow_zero]

variable {n : ℕ} {positive negative : List (List ℤ)} {values : List (Number K)}

/-- Rows with the unit row of one parameter each, summed at values of the parameters, are rows with
these values as coefficients. -/
theorem total_units [LawfulExact K] {rows : List (List ℤ)} (lead : ℤ) (shift : ℕ)
    (values : List (Number K))
    (hlen : ∀ a ∈ rows, a.length = n) (hshift : shift + rows.length ≤ values.length)
    (f : List ℤ → M) :
    Equation.total (rows.zipIdx.map fun a =>
        (lead :: a.1 ++ unitRow values.length (shift + a.2), (.one : Number K)))
        (fun a => EquationSystem.weight values (a.drop (n + 1)) • f (a.take (n + 1))) =
      Equation.total ((rows.zip (values.drop shift)).map fun a => (lead :: a.1, a.2)) f := by
  have hterm : ∀ a ∈ rows, ∀ u : List ℤ,
      (lead :: a ++ u).take (n + 1) = lead :: a ∧ (lead :: a ++ u).drop (n + 1) = u := by
    intro a ha u
    have hl : n + 1 = (lead :: a).length := by simp [hlen a ha]
    rw [hl]
    exact ⟨List.take_left, List.drop_left⟩
  rw [Equation.total, Equation.total, List.map_map, List.map_map]
  congr 1
  refine List.ext_getElem (by simp; omega) fun i hi _ => ?_
  have hi : i < rows.length := by simpa using hi
  have hi' : shift + i < values.length := by omega
  obtain ⟨htake, hdrop⟩ := hterm rows[i] (List.getElem_mem hi) (unitRow values.length (shift + i))
  have hvalue : (values.getD (shift + i) .zero).value = values[shift + i].value := by simp [hi']
  simp only [List.getElem_map, List.getElem_zipIdx, Function.comp_apply, zero_add,
    List.getElem_zip, List.getElem_drop, htake, hdrop, weight_unitRow hi', hvalue,
    Number.value_one, one_smul]

omit [Field K] in
theorem exact_of_mem_rows {rows rows' : List (List ℤ × ℕ)} {g g' : List ℤ × ℕ → List ℤ} :
    ∀ r ∈ rows.map (fun a => (g a, (.one : Number K))) ++ rows'.map (fun b => (g' b, .one)),
      r.2.isExact := by
  intro r hr
  rcases List.mem_append.mp hr with hr | hr
  all_goals
    obtain ⟨a, -, rfl⟩ := List.mem_map.mp hr
    rfl

def assigned (positive negative : List (List ℤ)) (values : List (Number K)) : Equation K :=
  (positive.zip values).map (fun a => (0 :: a.1, a.2)) ++
    (negative.zip (values.drop positive.length)).map fun b => (1 :: b.1, b.2)

theorem total_assigned_append {u v : List (Number K)} (h : positive.length = u.length)
    (f : List ℤ → M) : (assigned positive negative (u ++ v)).total f =
      Equation.total ((positive.zip u).map fun a => (0 :: a.1, a.2)) f +
        Equation.total ((negative.zip v).map fun b => (1 :: b.1, b.2)) f := by
  have hzip : positive.zip (u ++ v) = positive.zip u := by
    have hsplit : (positive ++ []).zip (u ++ v) = positive.zip u ++ [].zip v := List.zip_append h
    simpa using hsplit
  rw [assigned, hzip, h, List.drop_left, Equation.total_append]

theorem total_deformation [LawfulExact K] (hpos : ∀ a ∈ positive, a.length = n) (hneg : ∀ b ∈ negative, b.length = n)
    (hvalues : values.length = positive.length + negative.length) (f : List ℤ → M) :
    (deformation n positive negative : Equation K).total
        (fun a => EquationSystem.weight values (a.drop (n + 1)) • f (a.take (n + 1))) =
      (assigned positive negative values).total f := by
  have hp := total_units 0 0 values hpos (by omega) f
  have hn := total_units 1 positive.length values hneg (by omega) f
  simp only [zero_add, List.drop_zero] at hp
  rw [deformation, Equation.total_collect exact_of_mem_rows, Equation.total_append, ← hvalues, hp,
    hn, assigned, Equation.total_append]

theorem isExact_deformation : (deformation n positive negative : Equation K).isExact :=
  Equation.isExact_collect exact_of_mem_rows _

theorem exists_of_mem_deformation {r : Row K} (hr : r ∈ deformation n positive negative) :
    ∃ a ∈ positive ++ negative, ∃ lead i, 0 ≤ lead ∧
      r.1 = lead :: a ++ unitRow (positive.length + negative.length) i := by
  obtain ⟨r', hr', h⟩ := Equation.exponent_of_mem_collect exact_of_mem_rows hr
  rcases List.mem_append.mp hr' with hr' | hr'
  · obtain ⟨a, ha, rfl⟩ := List.mem_map.mp hr'
    exact ⟨a.1, List.mem_append_left _ (List.fst_mem_of_mem_zipIdx ha), 0, a.2, le_rfl, h⟩
  · obtain ⟨a, ha, rfl⟩ := List.mem_map.mp hr'
    exact ⟨a.1, List.mem_append_right _ (List.fst_mem_of_mem_zipIdx ha), 1, positive.length + a.2,
      zero_le_one, h⟩

theorem total_criticalEquations_deformation [LawfulExact K] [CharZero K]
    (hpos : ∀ a ∈ positive, a.length = n) (hneg : ∀ b ∈ negative, b.length = n)
    (hvalues : values.length = positive.length + negative.length) (f : List ℤ → M) :
    (EquationSystem.criticalEquations n (deformation n positive negative : Equation K)).map
      (Equation.total · fun a => EquationSystem.weight values (a.drop (n + 1)) • f (a.take (n + 1))) =
      (assigned positive negative values).total f :: (List.range n).map fun i =>
        (assigned positive negative values).total
          fun a => ((a.getD (i + 1) 0 : ℤ) : K) • f a := by
  rw [EquationSystem.total_criticalEquations isExact_deformation,
    total_deformation hpos hneg hvalues]
  congr 1
  refine List.map_congr_left fun i hi => ?_
  rw [← total_deformation hpos hneg hvalues]
  refine Equation.total_congr fun r _ => ?_
  have hi : i + 1 < n + 1 := by simpa using hi
  have hget : (r.1.take (n + 1)).getD (i + 1) 0 = r.1.getD (i + 1) 0 := by
    simp [hi]
  rw [hget, smul_comm]

/-! ## What is built -/

variable {s : Support K} {program : Balance.Program} {h : Homotopy K}

/-- A homotopy is built of a checked support with names for variables and with negative terms; it is
that of the weights of the first negative exponent. -/
theorem build_eq_ok_iff : build s program = .ok h ↔ s.checked = .ok s ∧ s.isSmooth = true ∧
    ∃ b rest w, s.negativeExponents = b :: rest ∧ balanceWeights s b program = .ok w ∧
      h = ofWeights s w := by
  constructor
  · intro hb
    obtain ⟨s', hs, hb'⟩ := bind_eq_ok.mp hb
    clear hb
    obtain rfl := Support.checked_eq_ok hs
    split at hb'
    · cases hb'
    case h_2 b rest hneg =>
      obtain ⟨w, hw, hb⟩ := bind_eq_ok.mp hb'
      split at hb
      · exact ⟨hs, ‹_›, b, rest, w, hneg, hw, (Except.ok.inj hb).symm⟩
      · cases hb
  · rintro ⟨hs, hsmooth, b, rest, w, hneg, hw, rfl⟩
    simp [build, hs, hneg, hw, hsmooth, bind, Except.bind]

theorem build_eq_ok (hb : build s program = .ok h) : ∃ b rest w,
    s.negativeExponents = b :: rest ∧ balanceWeights s b program = .ok w ∧ h = ofWeights s w :=
  (build_eq_ok_iff.mp hb).2.2

theorem build_of_weights {b : List ℤ} {rest : List (List ℤ)} {w : Vec} (hs : s.checked = .ok s)
    (hneg : s.negativeExponents = b :: rest) (hw : balanceWeights s b program = .ok w)
    (hsmooth : s.isSmooth) : build s program = .ok (ofWeights s w) :=
  build_eq_ok_iff.mpr ⟨hs, hsmooth, b, rest, w, hneg, hw, rfl⟩

theorem length_parameters (s : Support K) : (parametric s).parameters.length =
    s.positiveExponents.length + s.negativeExponents.length := by
  simp [parametric, Support.positiveExponents, Support.negativeExponents]

theorem parametric_names (s : Support K) : (parametric s).parameters.Nodup ∧
    ∀ x ∈ (parametric s).unknowns, x ∉ (parametric s).parameters := by
  refine ⟨nodup_freshNames _ _ _, fun x hx hp => notMem_of_mem_freshNames hp ?_⟩
  rcases List.mem_cons.mp hx with rfl | hx
  · simp
  · exact List.mem_append_left _ hx

/-- No two names of the parametric system are alike, unless two variables of the support are. -/
theorem nodup_parametric_iff (s : Support K) :
    ((parametric s).unknowns ++ (parametric s).parameters).Nodup ↔ s.names.Nodup := by
  obtain ⟨hparameters, hdisjoint⟩ := parametric_names s
  constructor
  · intro hall
    exact hall.of_append_left.of_cons
  · intro hnames
    have hunknowns : (parametric s).unknowns.Nodup :=
      List.nodup_cons.mpr ⟨freshName_notMem _ _, hnames⟩
    exact hunknowns.append hparameters fun x hx hp => hdisjoint x hx hp

theorem exists_of_mem_parametric {e : Equation K} (he : e ∈ (parametric s).equations) {r : Row K}
    (hr : r ∈ e) : ∃ a ∈ s.exponents, ∃ lead i, 0 ≤ lead ∧
      r.1 = lead :: a ++ unitRow (parametric s).parameters.length i := by
  obtain ⟨r', hr', h⟩ := EquationSystem.exponent_of_mem_criticalEquations he hr
  obtain ⟨a, ha, lead, i, hlead, hrow⟩ := exists_of_mem_deformation hr'
  rw [length_parameters]
  refine ⟨a, ?_, lead, i, hlead, h.trans hrow⟩
  rcases List.mem_append.mp ha with ha | ha
  · exact Support.mem_exponents_of_mem_positive ha
  · exact Support.mem_exponents_of_mem_negative ha

theorem length_of_mem_parametric (hlen : ∀ a ∈ s.exponents, a.length = s.dimension) :
    ∀ e ∈ (parametric s).equations, ∀ r ∈ e, r.1.length = (parametric s).width := by
  intro e he r hr
  obtain ⟨a, ha, lead, i, -, hrow⟩ := exists_of_mem_parametric he hr
  have hunknowns : (parametric s).unknowns.length = s.dimension + 1 := rfl
  rw [hrow, EquationSystem.width, hunknowns, List.length_append, List.length_cons, hlen a ha,
    length_unitRow]

theorem parametric_rows (hlen : ∀ a ∈ s.exponents, a.length = s.dimension)
    (hnonneg : ∀ a ∈ s.exponents, ∀ x ∈ a, 0 ≤ x) : ∀ e ∈ (parametric s).equations, ∀ r ∈ e,
      r.1.length = (parametric s).width ∧ ∀ x ∈ r.1, 0 ≤ x := by
  intro e he r hr
  refine ⟨length_of_mem_parametric hlen e he r hr, fun x hx => ?_⟩
  obtain ⟨a, ha, lead, i, hlead, hrow⟩ := exists_of_mem_parametric he hr
  rw [hrow] at hx
  rcases List.mem_append.mp hx with hx | hx
  · rcases List.mem_cons.mp hx with rfl | hx
    · exact hlead
    · exact hnonneg a ha x hx
  · exact unitRow_nonneg _ _ x hx

/-! ## The target -/

variable [LawfulExact K]

theorem total_general (hexact : ∀ c ∈ s.coefficients, c.isExact) (f : List ℤ → M) :
    (EquationSystem.deformation s).isExact ∧ (EquationSystem.deformation s).total f =
      (assigned s.positiveExponents s.negativeExponents
        (s.positiveCoefficients ++ s.negativeCoefficients)).total f := by
  have hrows : ∀ r ∈ s.positiveTerms.map (fun r => (0 :: r.1, r.2)) ++
      s.negativeTerms.map (fun r => (1 :: r.1, r.2)), r.2.isExact := by
    obtain ⟨hp, hn⟩ := Support.exact_of_mem_coefficients hexact
    intro r hr
    rcases List.mem_append.mp hr with hr | hr
    · obtain ⟨t, ht, rfl⟩ := List.mem_map.mp hr
      exact hp t.2 (List.mem_map_of_mem ht)
    · obtain ⟨t, ht, rfl⟩ := List.mem_map.mp hr
      exact hn t.2 (List.mem_map_of_mem ht)
  refine ⟨Equation.isExact_collect hrows _, ?_⟩
  have hl : s.positiveExponents.length = s.positiveCoefficients.length := by
    simp [Support.positiveExponents, Support.positiveCoefficients]
  rw [EquationSystem.deformation, Equation.total_collect hrows, total_assigned_append hl,
    Support.positive_zip, Support.negative_zip, Equation.total_append]

variable [CharZero K]

theorem total_equations_general (hexact : ∀ c ∈ s.coefficients, c.isExact) (f : List ℤ → M) :
    (EquationSystem.general s).equations.map (Equation.total · f) =
      (assigned s.positiveExponents s.negativeExponents
        (s.positiveCoefficients ++ s.negativeCoefficients)).total f ::
      (List.range s.dimension).map fun i => (assigned s.positiveExponents s.negativeExponents
        (s.positiveCoefficients ++ s.negativeCoefficients)).total
          fun a => ((a.getD (i + 1) 0 : ℤ) : K) • f a := by
  rw [EquationSystem.general, EquationSystem.total_criticalEquations (total_general hexact f).1,
    (total_general hexact f).2]
  congr 1
  exact List.map_congr_left fun i _ => (total_general hexact _).2

/-- At the true coefficients the homotopy is at the general system: fixing the parameters leaves
none, keeps the unknowns, and puts the coefficients for the names of the parameters, which gives the
polynomials of the general system. -/
theorem specialize_build_eq_general (hb : build s program = .ok h)
    (hlen : ∀ a ∈ s.exponents, a.length = s.dimension)
    (hnonneg : ∀ a ∈ s.exponents, ∀ x ∈ a, 0 ≤ x) (hexact : ∀ c ∈ s.coefficients, c.isExact) :
    ∃ target, h.system.specialize (s.positiveCoefficients ++ s.negativeCoefficients) = .ok target ∧
      target.parameters = [] ∧ target.unknowns = (EquationSystem.general s).unknowns ∧
      target.t = freshName "t" s.names ∧ target.t ∉ s.names ∧
      target.polynomials = h.system.polynomials.map (bind₁ (EquationSystem.substitution
        h.system.parameters (s.positiveCoefficients ++ s.negativeCoefficients))) ∧
      target.polynomials = (EquationSystem.general s).polynomials := by
  obtain ⟨b, rest, w, -, -, rfl⟩ := build_eq_ok hb
  set values := s.positiveCoefficients ++ s.negativeCoefficients with hvalues
  obtain ⟨hpe, hne⟩ := Support.exact_of_mem_coefficients hexact
  have hv : ∀ v ∈ values, v.isExact := fun v hv => (List.mem_append.mp hv).elim (hpe v) (hne v)
  have hcount : values.length = s.positiveExponents.length + s.negativeExponents.length := by
    simp [values, Support.positiveExponents, Support.negativeExponents,
      Support.positiveCoefficients, Support.negativeCoefficients]
  have hl : values.length = (parametric s).parameters.length := by
    rw [hcount, length_parameters]
  have hrows : ∀ a ∈ s.positiveExponents, a.length = s.dimension := fun a ha =>
    hlen a (Support.mem_exponents_of_mem_positive ha)
  have hrows' : ∀ b ∈ s.negativeExponents, b.length = s.dimension := fun b hb =>
    hlen b (Support.mem_exponents_of_mem_negative hb)
  obtain ⟨target, htarget, hparams, hunknowns, hsums⟩ := EquationSystem.specialize_eq_ok
    (s := parametric s) hl hv (EquationSystem.isExact_criticalEquations isExact_deformation)
    (namedMonomial (K := K) (parametric s).unknowns)
  obtain ⟨hnodup, hdisj⟩ := parametric_names s
  have hpoly : target.polynomials =
      target.equations.map (Equation.total · (namedMonomial (parametric s).unknowns)) := by
    rw [EquationSystem.polynomials, hparams, hunknowns, List.append_nil]
    rfl
  have hgeneral : (EquationSystem.general s).polynomials =
      (EquationSystem.general s).equations.map
        (Equation.total · (namedMonomial (parametric s).unknowns)) := by
    rw [EquationSystem.polynomials, EquationSystem.general, List.append_nil]
    rfl
  refine ⟨target, htarget, hparams, hunknowns, ?_, ?_, ?_, ?_⟩
  · rw [EquationSystem.t, hunknowns]
    rfl
  · rw [EquationSystem.t, hunknowns]
    exact freshName_notMem _ _
  · rw [hpoly, hsums]
    exact (EquationSystem.bind₁_polynomials hl (parametric_rows hlen hnonneg) hnodup hdisj).symm
  · have hunit : (parametric s).unknowns.length = s.dimension + 1 := rfl
    rw [hpoly, hsums, hgeneral, hunit, total_equations_general hexact]
    exact total_criticalEquations_deformation hrows hrows' hcount _

/-- Variables named like the deformation parameter and like a parameter. -/
def cubic : Support :=
  ⟨["t", "p0"], [[3, 0], [1, 1], [0, 3], [0, 0]], [.exact 1, .exact (-3), .exact 1, .exact 1], true⟩

noncomputable def rootCubic : Support ℝ :=
  ⟨["t", "p0"], [[3, 0], [1, 1], [0, 3], [0, 0]],
    [.exact √(2 : ℚ), .exact (-3 : ℚ), .exact 1, .exact 1], true⟩

theorem positiveTerms_rootCubic :
    rootCubic.positiveTerms = [([3, 0], .exact √2), ([0, 3], .exact 1), ([0, 0], .exact 1)] := by
  simp [rootCubic, Support.positiveTerms, Support.terms, Number.isNegative, Exact.isNegative]

theorem negativeTerms_rootCubic : rootCubic.negativeTerms = [([1, 1], .exact (-3))] := by
  simp [rootCubic, Support.negativeTerms, Support.terms, Number.isNegative, Exact.isNegative]

theorem build_rootCubic : build rootCubic = .ok (ofWeights rootCubic [1 / 3, 1 / 3, 1 / 3, 1]) := by
  have hpositive : rootCubic.positiveExponents = [[3, 0], [0, 3], [0, 0]] := by
    rw [Support.positiveExponents, positiveTerms_rootCubic]
    rfl
  have hnegative : rootCubic.negativeExponents = [[1, 1]] := by
    rw [Support.negativeExponents, negativeTerms_rootCubic]
    rfl
  refine build_of_weights rfl hnegative ?_ rfl
  rw [balanceWeights, hpositive]
  decide +kernel

/-- The fresh names stand beside variables that are named like them, and the first coefficient is no
rational. -/
theorem specialize_build_eq_general_rootCubic : ∃ h, build rootCubic = .ok h ∧ ∃ target,
    h.system.specialize [.exact √2, .exact 1, .exact 1, .exact (-3)] = .ok target ∧
      target.unknowns = ["t_", "t", "p0"] ∧ h.system.parameters = ["p_0", "p_1", "p_2", "p_3"] ∧
      target.polynomials = (EquationSystem.general rootCubic).polynomials := by
  obtain ⟨target, hspec, -, hunknowns, -, -, -, hpoly⟩ := specialize_build_eq_general
    build_rootCubic (by decide) (by decide) (by simp [rootCubic, Number.isExact])
  refine ⟨_, build_rootCubic, target, ?_, ?_, ?_, hpoly⟩
  · rw [← hspec, Support.positiveCoefficients, Support.negativeCoefficients,
      positiveTerms_rootCubic, negativeTerms_rootCubic]
    rfl
  · rw [hunknowns]
    decide +kernel
  · simp only [ofWeights, parametric, positiveTerms_rootCubic, negativeTerms_rootCubic]
    decide +kernel

/-! ## The start -/

/-- The exact values of the parameters at the start. -/
def startValues (weights : Vec) (positive negative : ℕ) : Vec :=
  weights.take positive ++ [-(weights.getLastD 0)] ++ List.replicate (negative - 1) 0

theorem length_startValues {w : Vec} {m k : ℕ} (hw : m ≤ w.length) :
    (startValues w m (k + 1)).length = m + (k + 1) := by
  simp [startValues, hw]

omit [LawfulExact K] in
theorem total_assigned_start (b : List ℤ) (rest : List (List ℤ)) {w : Vec}
    (hw : positive.length ≤ w.length) (f : List ℤ → ℚ) :
    (assigned positive (b :: rest) ((startValues w positive.length (b :: rest).length).map
        fun q : ℚ => .exact (q : K))).total (fun a => (f a : K)) =
      ((((positive.zip (w.take positive.length)).map fun p => f (0 :: p.1) * p.2).sum -
        f (1 :: b) * w.getLastD 0 : ℚ) : K) := by
  have hzeros : Equation.total ((rest.zip (List.replicate rest.length (.exact (0 : K)))).map
      fun b => (1 :: b.1, b.2)) (fun a => (f a : K)) = 0 := by
    refine List.sum_eq_zero fun q hq => ?_
    obtain ⟨r, hr, rfl⟩ := List.mem_map.mp hq
    obtain ⟨p, hp, rfl⟩ := List.mem_map.mp hr
    rw [List.eq_of_mem_replicate (List.of_mem_zip hp).2]
    exact zero_smul _ _
  have hsplit : (startValues w positive.length (b :: rest).length).map
      (fun q : ℚ => Number.exact (q : K)) =
        (w.take positive.length).map (fun q : ℚ => .exact (q : K)) ++
        .exact (-(w.getLastD 0 : ℚ) : K) :: List.replicate rest.length (.exact 0) := by
    simp [startValues]
  rw [hsplit, total_assigned_append (by simpa using hw), List.zip_cons_cons, List.map_cons,
    Equation.total_cons, hzeros, add_zero, List.zip_map_right, List.map_map, Equation.total,
    List.map_map, Rat.cast_sub, sub_eq_add_neg, ← Rat.coe_castHom, map_list_sum, List.map_map]
  congr 1
  · congr 1
    exact List.map_congr_left fun p _ => by simp [mul_comm]
  · simp [mul_comm]

theorem exactValues_ones (hlen : ∀ a ∈ s.exponents, a.length = s.dimension)
    (hnonneg : ∀ a ∈ s.exponents, ∀ x ∈ a, 0 ≤ x) {values : List K}
    (hvalues : values.length = s.positiveExponents.length + s.negativeExponents.length) :
    (parametric s).exactValues (List.replicate (s.dimension + 1) 1) values =
      .ok ((assigned s.positiveExponents s.negativeExponents (values.map .exact)).total (fun _ => 1)
        :: (List.range s.dimension).map fun i =>
          (assigned s.positiveExponents s.negativeExponents (values.map .exact)).total
            fun a => ((a.getD (i + 1) 0 : ℤ) : K)) := by
  have hrows := parametric_rows hlen hnonneg
  have hcrit := total_criticalEquations_deformation
    (fun a ha => hlen a (Support.mem_exponents_of_mem_positive ha))
    (fun b hb => hlen b (Support.mem_exponents_of_mem_negative hb))
    (by simpa using hvalues : (values.map Number.exact).length = _) fun _ => (1 : K)
  simp only [smul_eq_mul, mul_one] at hcrit
  rw [EquationSystem.exactValues_known (by simp [parametric, Support.dimension])
    (by rw [hvalues, length_parameters]) (length_of_mem_parametric hlen), ← hcrit]
  congr 1
  refine List.map_congr_left fun e he => Equation.total_congr fun r hr => ?_
  obtain ⟨hwidth, hpos⟩ := hrows e he r hr
  have htake : (r.1.take (s.dimension + 1)).length =
      (List.replicate (s.dimension + 1) (.one : Number K)).length := by
    rw [List.length_take, List.length_replicate, hwidth, EquationSystem.width]
    simp [parametric, Support.dimension]
  have hmap : (List.replicate (s.dimension + 1) (1 : K) ++ values).map Number.exact =
      List.replicate (s.dimension + 1) .one ++ values.map .exact := by
    rw [List.map_append, List.map_replicate, Number.one, LawfulExact.ofRat_eq, Rat.cast_one]
  conv_lhs => rw [← List.take_append_drop (s.dimension + 1) r.1]
  rw [hmap, EquationSystem.weight_append _ _ htake, EquationSystem.weight_replicate_one,
    one_mul]

/-- At the start the point of all ones solves the system exactly, whatever the program proposed:
there is a value for each parameter, and every equation is zero. -/
theorem exactValues_start_eq_zero (hs : s.IsLattice) (hnonneg : ∀ a ∈ s.exponents, ∀ x ∈ a, 0 ≤ x)
    (hb : build s program = .ok h) :
    (startValues h.weights s.positiveExponents.length s.negativeExponents.length).length =
        h.system.parameters.length ∧
      h.system.exactValues (List.replicate (s.dimension + 1) 1)
          ((startValues h.weights s.positiveExponents.length s.negativeExponents.length).map
            fun q : ℚ => (q : K)) =
        .ok (List.replicate (s.dimension + 1) 0) := by
  obtain ⟨b, rest, w, hneg, hw, rfl⟩ := build_eq_ok hb
  have hbal := Balance.isBalanced_of_point (fun r hr => by
    rw [Balance.length_of_mem_matrixOf r hr, Balance.length_headD_matrixOf]) hw
  have hwl : s.positiveExponents.length ≤ w.length := by
    rw [hbal.length_eq]
    omega
  have hbmem : b ∈ s.exponents := Support.mem_exponents_of_mem_negative (by simp [hneg])
  have hcount : (startValues w s.positiveExponents.length s.negativeExponents.length).length =
      s.positiveExponents.length + s.negativeExponents.length := by
    rw [hneg]
    exact length_startValues hwl
  refine ⟨?_, ?_⟩
  · rw [show (ofWeights s w).system = parametric s from rfl, length_parameters]
    exact hcount
  rw [show (ofWeights s w).system = parametric s from rfl,
    show (ofWeights s w).weights = w from rfl,
    exactValues_ones hs.length hnonneg (by simpa using hcount), hneg, List.map_map]
  congr 1
  refine List.eq_replicate_iff.mpr ⟨by simp, List.forall_mem_cons.mpr ⟨?_, ?_⟩⟩
  · have hsum := hbal.sum_eq
    have hsnd : (s.positiveExponents.zip (w.take s.positiveExponents.length)).map Prod.snd =
        w.take s.positiveExponents.length :=
      List.map_snd_zip (by simp)
    have hstart := total_assigned_start (K := K) b rest hwl fun _ => 1
    simp only [one_mul, Rat.cast_one] at hstart
    exact hstart.trans (by rw [hsnd, hsum, sub_self, Rat.cast_zero])
  · refine List.forall_mem_map.mpr fun i hi => ?_
    have hi : i < b.length := by simpa [hs.length b hbmem] using hi
    have hget : b.getD i 0 ∈ b := by simp [hi]
    have hword := isWord_neg (hs.word b hbmem _ hget) (hnonneg b hbmem _ hget)
    have hstart := total_assigned_start (K := K) b rest hwl
      fun a => ((a.getD (i + 1) 0 : ℤ) : ℚ)
    simp only [List.getD_cons_succ, Rat.cast_intCast] at hstart
    exact hstart.trans (by rw [hbal.sum_coord hi hword, sub_self, Rat.cast_zero])

theorem exactValues_start_eq_zero_cubic : ∃ h,
    build cubic (fun _ cols => some ⟨(List.range cols).map fun i => (i : ℚ) + 1, by simp⟩) = .ok h ∧
      h.system.exactValues [1, 1, 1] [1 / 3, 1 / 3, 1 / 3, -1] = .ok [0, 0, 0] := by
  have hb : build cubic (fun _ cols => some ⟨(List.range cols).map fun i => (i : ℚ) + 1, by simp⟩) =
      .ok (ofWeights cubic [1 / 3, 1 / 3, 1 / 3, 1]) :=
    build_of_weights rfl (show cubic.negativeExponents = [[1, 1]] by decide_cbv)
      (by decide_cbv) rfl
  exact ⟨_, hb, (exactValues_start_eq_zero ⟨by decide, by decide⟩ (by decide) hb).2⟩

end Homotopy

end Orthant
