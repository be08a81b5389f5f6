import Mathlib
import Orthant.EquationSystem.Substitution
import Orthant.Proofs.EquationSystem.Evaluation
import Orthant.Proofs.Number.Rounding
import Orthant.Proofs.Solver.Request

/-! # Handing a system over

The engine gets, for each equation, the exponents of all rows one after the other and the coefficients of
the rows. It cuts the exponents into columns, one for each coefficient, and adds the products of the
coefficients with the powers of the unknowns. When the coefficients are doubles this gives the equation
back.
-/

namespace Orthant

/-! ## What the engine makes of a system -/

namespace Engine

/-- The first columns of length `k`. -/
def columns (k count : ℕ) (exponents : List ℤ) : List (List ℤ) :=
  (List.range count).map fun j => (exponents.drop (j * k)).take k

def powers (point : List ℚ) (column : List ℤ) : ℚ :=
  (List.zipWith (fun x (n : ℤ) => x ^ n) point column).prod

/-- The sum of the coefficients times the powers in their columns, if all coefficients are finite. -/
def decode (k : ℕ) (point : List ℚ) (exponents : List ℤ) (coefficients : List Double) : Option ℚ :=
  (coefficients.mapM Double.value?).map fun cs =>
    (List.zipWith (fun c column => c * powers point column) cs
      (columns k coefficients.length exponents)).sum

section Columns

variable {k : ℕ} {rows : List (List ℤ)}

theorem length_flatten (h : ∀ a ∈ rows, a.length = k) : rows.flatten.length = k * rows.length := by
  rw [List.length_flatten, List.map_congr_left h, List.map_const', List.sum_replicate, smul_eq_mul,
    mul_comm]

theorem columns_flatten (h : ∀ a ∈ rows, a.length = k) :
    columns k rows.length rows.flatten = rows := by
  induction rows with
  | nil => rfl
  | cons a rows ih =>
    obtain ⟨ha, h⟩ := List.forall_mem_cons.mp h
    rw [columns, List.length_cons, List.range_succ_eq_map, List.map_cons, List.map_map,
      List.flatten_cons]
    congr 1
    · rw [Nat.zero_mul, List.drop_zero, List.take_left' ha]
    · conv_rhs => rw [← ih h]
      refine List.map_congr_left fun j _ => ?_
      have hj : (j + 1) * k = a.length + j * k := by rw [ha]; ring
      rw [Function.comp_apply, Nat.succ_eq_add_one, hj, List.drop_length_add_append]

end Columns

theorem powers_eq_weight (point : List ℚ) (a : List ℤ) :
    powers point a = EquationSystem.weight (point.map .exact) a := by
  induction a generalizing point with
  | nil => simp [powers, EquationSystem.weight]
  | cons n a ih =>
    cases point with
    | nil => simp [powers, EquationSystem.weight]
    | cons x point =>
      have ih := ih point
      simp only [powers, EquationSystem.weight] at ih ⊢
      rw [List.zipWith_cons_cons, List.prod_cons, ih]
      rfl

theorem mapM_eq_some {α β : Type} {f : α → Option β} {g : α → β} {l : List α}
    (h : ∀ a ∈ l, f a = some (g a)) : l.mapM f = some (l.map g) := by
  induction l with
  | nil => rfl
  | cons a l ih =>
    obtain ⟨ha, h⟩ := List.forall_mem_cons.mp h
    rw [List.mapM_cons, ha, ih h]
    rfl

theorem decode_flatten {k : ℕ} {point : List ℚ} {rows : Equation} (hlen : ∀ r ∈ rows, r.1.length = k)
    (hdouble : ∀ r ∈ rows, r.2.IsDouble) :
    decode k point (rows.map Prod.fst).flatten (rows.map fun r => r.2.toDouble) =
      some (rows.total (EquationSystem.weight (point.map .exact))) := by
  have hvalues : (rows.map fun r => r.2.toDouble).mapM Double.value? =
      some (rows.map fun r => r.2.value) := by
    rw [List.mapM_map]
    exact mapM_eq_some fun r hr => (hdouble r hr).double
  have hcolumns : columns k rows.length (rows.map Prod.fst).flatten = rows.map Prod.fst := by
    rw [← List.length_map Prod.fst]
    exact columns_flatten (by simpa using hlen)
  rw [decode, hvalues, Option.map_some, List.length_map, hcolumns, List.zipWith_map, List.zipWith_self,
    Equation.total]
  congr 2
  exact List.map_congr_left fun r _ => by rw [powers_eq_weight, smul_eq_mul]

end Engine

/-! ## The rows of an equation -/

namespace Equation

variable {e : Equation} {k : ℕ}

/-- All rows have `k` exponents, none of them negative, and coefficients that are doubles. -/
structure IsExportable (k : ℕ) (e : Equation) : Prop where
  length : ∀ r ∈ e, r.1.length = k
  nonneg : ∀ r ∈ e, ∀ n ∈ r.1, 0 ≤ n
  double : ∀ r ∈ e, r.2.IsDouble

theorem listing_eq_map {K : Type} [Exact K] {e : Equation K} {g : Number K → Number K} (he : e ≠ [])
    (hg : Number.unify ((e.mergeSort fun r s => fallingLex r.1 s.1).map Prod.snd) =
      ((e.mergeSort fun r s => fallingLex r.1 s.1).map Prod.snd).map g) :
    listing k e = (e.mergeSort fun r s => fallingLex r.1 s.1).map fun r => (r.1, g r.2) := by
  rw [listing, if_neg (by simpa using he)]
  dsimp only
  rw [hg, List.map_map, List.zip_map']
  rfl

theorem exists_listing (he : e ≠ []) (hdouble : ∀ r ∈ e, r.2.IsDouble) (k : ℕ) :
    ∃ (e' : Equation) (g : Number → Number), e'.Perm e ∧ listing k e = e'.map (fun r => (r.1, g r.2)) ∧
      ∀ r ∈ e', (g r.2).IsDouble ∧ (g r.2).value = r.2.value := by
  have hperm := List.mergeSort_perm e fun r s => fallingLex r.1 s.1
  have hsorted : ∀ c ∈ (e.mergeSort fun r s => fallingLex r.1 s.1).map Prod.snd, c.IsDouble := by
    intro c hc
    obtain ⟨r, hr, rfl⟩ := List.mem_map.mp hc
    exact hdouble r (hperm.mem_iff.mp hr)
  obtain ⟨g, hg, hkeep⟩ := Number.exists_unify hsorted
  exact ⟨_, g, hperm, listing_eq_map he hg, fun r hr => hkeep r.2 (List.mem_map_of_mem hr)⟩

/-- Listing keeps what the rows are; an equation without rows is listed as one that is zero. -/
theorem IsExportable.listing (h : e.IsExportable k) : (e.listing k).IsExportable k := by
  by_cases he : e = []
  · subst he
    constructor
    all_goals
      intro r hr
      obtain rfl := List.mem_singleton.mp hr
    · exact List.length_replicate
    · exact fun n hn => (List.eq_of_mem_replicate hn).ge
    · exact Number.isDouble_zero
  · obtain ⟨e', g, hperm, hlisting, hkeep⟩ := exists_listing he h.double k
    rw [hlisting]
    constructor
    all_goals
      intro r hr
      obtain ⟨r', hr', rfl⟩ := List.mem_map.mp hr
    · exact h.length r' (hperm.mem_iff.mp hr')
    · exact h.nonneg r' (hperm.mem_iff.mp hr')
    · exact (hkeep r' hr').1

theorem IsExportable.total_listing (h : e.IsExportable k) (f : List ℤ → ℚ) :
    (e.listing k).total f = e.total f := by
  by_cases he : e = []
  · subst he
    simp [Equation.listing]
  · obtain ⟨e', g, hperm, hlisting, hkeep⟩ := exists_listing he h.double k
    rw [hlisting, ← total_perm hperm f, total, total, List.map_map]
    exact congrArg List.sum (List.map_congr_left fun r hr => by
      rw [Function.comp_apply, (hkeep r hr).2])

end Equation

/-! ## Systems -/

theorem Polynomial.hasRepeats_iff {names : List String} : hasRepeats names = true ↔ ¬ names.Nodup := by
  induction names with
  | nil => simp [hasRepeats]
  | cons s names ih =>
    rw [hasRepeats, Bool.or_eq_true, ih, List.nodup_cons, List.contains_iff_mem]
    tauto

namespace EquationSystem

section Check

variable {K : Type} {s : EquationSystem K}

/-- A system in distinct names without negative exponents passes the check. -/
theorem check_eq_ok (hnames : (s.unknowns ++ s.parameters).Nodup)
    (hnonneg : ∀ e ∈ s.equations, ∀ r ∈ e, ∀ n ∈ r.1, 0 ≤ n) : s.check = .ok () := by
  rw [EquationSystem.check, if_neg (by rw [Polynomial.hasRepeats_iff]; exact not_not.mpr hnames),
    if_neg]
  intro hnegative
  obtain ⟨e, he, hnegative⟩ := List.any_eq_true.mp hnegative
  obtain ⟨r, hr, hnegative⟩ := List.any_eq_true.mp hnegative
  obtain ⟨n, hn, hnegative⟩ := List.any_eq_true.mp hnegative
  have := hnonneg e he r hr n hn
  simp only [decide_eq_true_eq] at hnegative
  omega

theorem check_eq_ok_iff : s.check = .ok () ↔ (s.unknowns ++ s.parameters).Nodup ∧
    ∀ e ∈ s.equations, ∀ r ∈ e, ∀ k ∈ r.1, 0 ≤ k := by
  constructor
  · intro h
    rw [EquationSystem.check] at h
    split at h
    · cases h
    case isFalse hnames =>
      rw [Polynomial.hasRepeats_iff, not_not] at hnames
      split at h
      · cases h
      case isFalse hnegative => exact ⟨hnames, by simpa using hnegative⟩
  · rintro ⟨hnames, hnonneg⟩
    exact check_eq_ok hnames hnonneg

theorem listings_eq_ok_iff [Exact K] {ls : List (Equation K)} : s.listings = .ok ls ↔
    s.check = .ok () ∧ ls = s.equations.map (Equation.listing s.width) := by
  refine bind_eq_ok.trans ?_
  constructor
  · rintro ⟨⟨⟩, hcheck, hls⟩
    exact ⟨hcheck, (Except.ok.inj hls).symm⟩
  · rintro ⟨hcheck, rfl⟩
    exact ⟨(), hcheck, rfl⟩

theorem terms_eq [Exact K] (h : s.check = .ok ()) : s.terms = .ok (s.equations.map fun e =>
    ((e.listing s.width).map Prod.fst, (e.listing s.width).map fun r => r.2.toDouble)) := by
  rw [terms, listings, h]
  simp [Except.bind, bind, Function.comp_def]

theorem flat_eq [Exact K] (h : s.check = .ok ()) : s.flat = .ok (s.equations.map fun e =>
    (((e.listing s.width).map Prod.fst).flatten, (e.listing s.width).map fun r => r.2.toDouble)) := by
  rw [flat, terms_eq h]
  simp [Except.bind, bind, Function.comp_def]

end Check

section Evaluate

variable {K : Type} [Field K] [Exact K] {s : EquationSystem K}

omit [Field K] in
/-- There is an exact value unless a coefficient is inexact or a zero stands under a negative
exponent. -/
theorem isDefinedAt_iff {point parameters : List K} : s.isDefinedAt point parameters ↔
    ∀ e ∈ s.equations, e.isExact ∧ ∀ r ∈ e, ∀ f ∈ r.1.zip (s.assignment point parameters),
      ∀ x ∈ f.2, 0 ≤ f.1 ∨ Exact.isZero x = false := by
  simp [isDefinedAt, Equation.isDefinedAt, Option.all_eq_true]

/-- Where there is an exact value it is taken before it is rounded. -/
theorem evaluate_rational [LawfulExact K] [Symbolic K] {point parameters : List ℚ} {values : List K}
    (hpoint : point.length = s.unknowns.length) (hparameters : parameters.length = s.parameters.length)
    (hdefined : s.isDefinedAt (point.map fun q : ℚ => (q : K)) (parameters.map fun q : ℚ => (q : K)))
    (hvalues : s.exactValues (point.map fun q : ℚ => (q : K)) (parameters.map fun q : ℚ => (q : K)) =
      .ok values) :
    s.evaluate (point.map fun q => .real (.rational q)) (parameters.map fun q => .real (.rational q)) =
      .ok (values.map fun x => ⟨Exact.toDouble x, .zero⟩) := by
  have hexact : ∀ qs : List ℚ, (qs.map fun q => Value.real (.rational q)).mapM Value.exactNumber? =
      some (qs.map fun q : ℚ => (q : K)) := by
    intro qs
    rw [List.mapM_map]
    exact Engine.mapM_eq_some fun q _ => congrArg some (LawfulExact.ofRat_eq q)
  rw [evaluate, List.take_of_length_le (by simp [hpoint]), List.take_of_length_le (by simp [hparameters])]
  simp only [hexact, hdefined, hvalues]
  rfl

end Evaluate

variable {s : EquationSystem}

/-- The system is polynomial in distinct names, and its coefficients are doubles. -/
structure IsExportable (s : EquationSystem) : Prop where
  names : (s.unknowns ++ s.parameters).Nodup
  equations : ∀ e ∈ s.equations, e.IsExportable s.width

theorem IsExportable.check (h : s.IsExportable) : s.check = .ok () :=
  check_eq_ok h.names fun e he => (h.equations e he).nonneg

/-- Nothing is lost when a system is handed over. The engine gets the exponents of each equation in columns,
with one coefficient for each, in the order of the rows; and what it makes of them at a rational point is
the exact value of the equation there, the unknowns coming before the parameters. Evaluation rounds this
value when all coefficients are exact. -/
theorem decode_of_sendSystem (h : s.IsExportable) : ∃ terms flat, s.terms = .ok terms ∧ s.flat = .ok flat ∧
    (∀ engine w, ((Client.sendSystem engine s).runIn w).2.memory.session.events =
      w.memory.session.events ++
        [.system s.unknowns s.parameters (flat.map Prod.fst) (flat.map Prod.snd)]) ∧
    List.Forall₂ (fun term f => f.2 = term.2 ∧ f.1.length = s.width * f.2.length ∧
      Engine.columns s.width f.2.length f.1 = term.1) terms flat ∧
    ∀ point parameters : List ℚ, point.length = s.unknowns.length →
      parameters.length = s.parameters.length →
      ∃ values : List ℚ,
        flat.mapM (fun f => Engine.decode s.width (point ++ parameters) f.1 f.2) = some values ∧
        s.exactValues point parameters = .ok values ∧
        (s.equations.all Equation.isExact →
          s.evaluate (point.map fun q => .real (.rational q))
            (parameters.map fun q => .real (.rational q)) =
              .ok (values.map fun q => ⟨Double.ofRat q, .zero⟩)) := by
  refine ⟨_, _, terms_eq h.check, flat_eq h.check, fun engine w => ?handed, ?terms,
    fun point parameters hp hq => ?values⟩
  case handed =>
    rw [Client.runIn_sendSystem engine (flat_eq h.check)]
    simp [Client.handOver]
  case terms =>
    rw [List.forall₂_map_left_iff, List.forall₂_map_right_iff, List.forall₂_same]
    intro e he
    have hlen : ∀ a ∈ (e.listing s.width).map Prod.fst, a.length = s.width := by
      simpa using fun a c hr => (h.equations e he).listing.length (a, c) hr
    have hlength := Engine.length_flatten hlen
    have hcolumns := Engine.columns_flatten hlen
    rw [List.length_map] at hlength hcolumns ⊢
    exact ⟨rfl, hlength, hcolumns⟩
  case values =>
    have hvalues := exactValues_known hp hq fun e he => (h.equations e he).length
    have hdefined : s.equations.all Equation.isExact → s.isDefinedAt point parameters := fun hexact =>
      isDefinedAt_iff.mpr fun e he => ⟨List.all_eq_true.mp hexact e he, fun r hr f hf _ _ =>
        .inl ((h.equations e he).nonneg r hr _ (List.of_mem_zip hf).1)⟩
    refine ⟨_, ?_, hvalues, fun hexact => evaluate_rational hp hq (by simpa using hdefined hexact)
      (by simpa using hvalues)⟩
    rw [List.mapM_map]
    refine Engine.mapM_eq_some fun e he => ?_
    have hlisting := (h.equations e he).listing
    rw [Function.comp_apply, Engine.decode_flatten hlisting.length hlisting.double,
      (h.equations e he).total_listing]

/-- The equations `x p + t / 2 = 0` and `0 = 0` in the unknowns `t` and `x` with the parameter `p`, at
`t = 2`, `x = 3` and `p = 5`. -/
theorem decode_of_sendSystem_pair :
    let s : EquationSystem :=
      ⟨["t", "x"], ["p"], [[([0, 1, 1], .one), ([1, 0, 0], .approx 53 (1 / 2))], []]⟩
    ∃ flat, s.flat = .ok flat ∧
      flat.mapM (fun f => Engine.decode 3 [2, 3, 5] f.1 f.2) = some [16, 0] := by
  intro s
  have hfirst : Equation.IsExportable 3 [([0, 1, 1], .one), ([1, 0, 0], .approx 53 (1 / 2))] := by
    refine ⟨by decide, by decide, fun r hr => ?_⟩
    rcases List.mem_pair.mp hr with rfl | rfl
    · exact ⟨by decide +kernel, nofun⟩
    · exact ⟨by decide +kernel, fun _ => le_rfl⟩
  have hs : s.IsExportable := by
    refine ⟨by decide, fun e he => ?_⟩
    rcases List.mem_pair.mp he with rfl | rfl
    · exact hfirst
    · exact ⟨nofun, nofun, nofun⟩
  obtain ⟨terms, flat, -, hflat, -, -, hvalues⟩ := decode_of_sendSystem hs
  obtain ⟨values, hdecode, hexact, -⟩ := hvalues [2, 3] [5] rfl rfl
  have h : s.exactValues [2, 3] [5] = .ok [16, 0] := by decide +kernel
  obtain rfl : values = [16, 0] := Except.ok.inj (hexact.symm.trans h)
  exact ⟨flat, hflat, hdecode⟩

end EquationSystem

end Orthant
