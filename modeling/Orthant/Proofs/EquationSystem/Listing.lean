import Mathlib
import Orthant.Proofs.EquationSystem.Export

/-! # Rows that are listed

Collected rows are reduced: no exponent stands twice and no coefficient is zero. Logarithmic
derivatives keep this, and so does listing, save for an equation without rows, for which one row of
zeros is listed.
-/

namespace Orthant

theorem Number.unify_exact {K : Type} [Exact K] {cs : List (Number K)} (h : ∀ c ∈ cs, c.isExact) : unify cs = cs := by
  have hbits : cs.map bits = List.replicate cs.length 0 := by
    refine List.eq_replicate_iff.mpr ⟨List.length_map _, fun k hk => ?_⟩
    obtain ⟨c, hc, rfl⟩ := List.mem_map.mp hk
    rw [eq_exact (h c hc)]
    rfl
  have hzero : ∀ m, (List.replicate m 0).foldl max 0 = 0 := by
    intro m
    induction m with
    | zero => rfl
    | succ m ih => exact ih
  rw [unify, maxBits, hbits, hzero, if_pos rfl]

theorem Number.exists_unify_map {K : Type} [Exact K] (cs : List (Number K)) :
    ∃ g : Number K → Number K, unify cs = cs.map g ∧ True := by
  rw [unify]
  split
  case isTrue => exact ⟨id, by simp, trivial⟩
  case isFalse => exact ⟨_, rfl, trivial⟩

namespace Equation

variable {K : Type} [Field K] [Exact K] {e : Equation K} {r : Row K} {rows : List (Row K)}
  {a : List ℤ} {c : K}

/-- No exponent stands twice and no coefficient is zero. -/
structure IsReduced (e : Equation K) : Prop where
  nodup : (e.map Prod.fst).Nodup
  nonzero : ∀ r ∈ e, r.2.value ≠ 0

theorem isReduced_nil : IsReduced ([] : Equation K) := ⟨List.nodup_nil, nofun⟩

theorem IsReduced.tail {s : Row K} (h : IsReduced (s :: e)) : e.IsReduced :=
  ⟨(List.nodup_cons.mp h.nodup).2, fun r hr => h.nonzero r (List.mem_cons_of_mem _ hr)⟩

theorem IsReduced.cons {s : Row K} (h : e.IsReduced) (hs : s.2.value ≠ 0)
    (hnew : ∀ r ∈ e, s.1 ≠ r.1) : IsReduced (s :: e) := by
  refine ⟨List.nodup_cons.mpr ⟨fun hmem => ?_, h.nodup⟩, List.forall_mem_cons.mpr ⟨hs, h.nonzero⟩⟩
  obtain ⟨r, hr, he⟩ := List.mem_map.mp hmem
  exact hnew r hr he.symm

theorem IsReduced.ne_of_mem {s : Row K} (h : IsReduced (s :: e)) (hr : r ∈ e) : s.1 ≠ r.1 :=
  fun he => (List.nodup_cons.mp h.nodup).1 (he ▸ List.mem_map_of_mem hr)

theorem IsReduced.insert [LawfulExact K] (h : e.IsReduced) (he : e.isExact) (hr : r.2.isExact) :
    (insert r e).IsReduced := by
  induction e with
  | nil =>
    rw [Equation.insert]
    split
    case isTrue => exact h
    case isFalse hz => exact h.cons (fun hv => hz ((Number.isZero_iff hr).mpr hv)) (by simp)
  | cons s e ih =>
    simp only [isExact_iff, List.forall_mem_cons] at he ih
    rw [Equation.insert]
    split
    case isTrue =>
      have hsum : (s.2.add r.2).isExact := by
        rw [Number.add_exact he.1 hr]
        rfl
      simp only
      split
      case isTrue => exact h.tail
      case isFalse hz =>
        exact h.tail.cons (fun hv => hz ((Number.isZero_iff hsum).mpr hv)) fun _ => h.ne_of_mem
    case isFalse hs =>
      refine (ih h.tail he.2).cons (h.nonzero s List.mem_cons_self) fun r' hr' hne => ?_
      rcases mem_insert hr' with hr' | ⟨s', hs', hr'⟩
      · exact hs (hne.trans hr')
      · exact h.ne_of_mem hs' (hne.trans hr')

theorem isReduced_collect [LawfulExact K] (hrows : ∀ r ∈ rows, r.2.isExact) (width : ℕ) :
    (collect width rows).IsReduced := by
  have hfold : ∀ (rows : List (Row K)) (e : Equation K), (∀ r ∈ rows, r.2.isExact) → e.isExact →
      e.IsReduced → (rows.foldl (fun acc r => Equation.insert r acc) e).IsReduced := by
    intro rows
    induction rows with
    | nil => exact fun e _ _ h => h
    | cons r rows ih =>
      intro e hrows he h
      obtain ⟨hr, hrows⟩ := List.forall_mem_cons.mp hrows
      exact ih _ hrows (isExact_insert hr he) (h.insert he hr)
  rw [collect_eq_foldl hrows]
  exact hfold rows [] hrows (isExact_iff.mpr nofun) isReduced_nil

theorem IsReduced.logDerivative [LawfulExact K] [CharZero K] (h : e.IsReduced) (he : e.isExact) (place : ℕ) :
    (e.logDerivative place).IsReduced := by
  constructor
  · rw [Equation.logDerivative, List.map_map]
    exact h.nodup.sublist (List.filter_sublist.map Prod.fst)
  · intro r hr
    obtain ⟨s, hs, rfl⟩ := List.mem_map.mp hr
    obtain ⟨hs, hplace⟩ := List.mem_filter.mp hs
    rw [Number.mul_exact (isExact_iff.mp he s hs) (show (Number.ofInt _).isExact from rfl)]
    rw [Number.value_exact, Number.value_ofInt]
    exact mul_ne_zero (h.nonzero s hs) (Int.cast_ne_zero.mpr (by simpa using hplace))

theorem IsReduced.criticalEquations [LawfulExact K] [CharZero K] (h : e.IsReduced) (he : e.isExact) (n : ℕ) :
    ∀ f ∈ EquationSystem.criticalEquations n e, f.IsReduced := by
  intro f hf
  rcases List.mem_cons.mp hf with rfl | hf
  · exact h
  · obtain ⟨i, -, rfl⟩ := List.mem_map.mp hf
    exact h.logDerivative he _

/-! ## Coefficients -/

def coefficientAt (e : Equation K) (a : List ℤ) : K := e.total fun b => if b = a then 1 else 0

theorem coefficientAt_of_notMem (h : a ∉ e.map Prod.fst) : e.coefficientAt a = 0 := by
  refine List.sum_eq_zero fun q hq => ?_
  obtain ⟨r, hr, rfl⟩ := List.mem_map.mp hq
  have hne : r.1 ≠ a := fun he => h (he ▸ List.mem_map_of_mem hr)
  simp [hne]

/-- The rows of a reduced equation are the coefficients other than zero. -/
theorem IsReduced.mem_iff (h : e.IsReduced) (he : e.isExact) (hc : c ≠ 0) :
    (a, .exact c) ∈ e ↔ e.coefficientAt a = c := by
  induction e with
  | nil => simp [coefficientAt, hc.symm]
  | cons s e ih =>
    obtain ⟨hs, he⟩ := List.forall_mem_cons.mp (isExact_iff.mp he)
    have ih := ih h.tail (isExact_iff.mpr he)
    obtain ⟨b, d⟩ := s
    rw [coefficientAt, total_cons, ← coefficientAt.eq_1, List.mem_cons, ih, Prod.mk.injEq]
    by_cases hb : b = a
    · subst hb
      have hzero : coefficientAt e b = 0 :=
        coefficientAt_of_notMem (List.nodup_cons.mp h.nodup).1
      obtain ⟨q, rfl⟩ : ∃ q, d = .exact q := ⟨_, Number.eq_exact hs⟩
      simp [hzero, hc.symm, eq_comm]
    · simp [hb, Ne.symm hb]

theorem IsReduced.eq_nil_iff (h : e.IsReduced) (he : e.isExact) :
    e = [] ↔ ∀ a, e.coefficientAt a = 0 := by
  constructor
  · rintro rfl a
    rfl
  · intro hall
    by_contra hne
    obtain ⟨⟨a, d⟩, e, rfl⟩ := List.exists_cons_of_ne_nil hne
    have hd := h.nonzero (a, d) List.mem_cons_self
    have hmem : (a, Number.exact d.value) ∈ (a, d) :: e := by
      rw [← Number.eq_exact (isExact_iff.mp he (a, d) List.mem_cons_self)]
      exact List.mem_cons_self
    exact hd (((h.mem_iff he hd).mp hmem).symm.trans (hall a))

/-! ## Listing -/

omit [Field K] in
theorem listing_perm (he : e.isExact) (hne : e ≠ []) (k : ℕ) : (e.listing k).Perm e := by
  have hperm := List.mergeSort_perm e fun r s => fallingLex r.1 s.1
  have hexact : ∀ c ∈ (e.mergeSort fun r s => fallingLex r.1 s.1).map Prod.snd, c.isExact := by
    intro c hc
    obtain ⟨r, hr, rfl⟩ := List.mem_map.mp hc
    exact isExact_iff.mp he r (hperm.mem_iff.mp hr)
  rw [listing, if_neg (by simpa using hne)]
  dsimp only
  rw [Number.unify_exact hexact, List.zip_map', List.map_id']
  exact hperm

omit [Field K] in
theorem listing_nil (k : ℕ) : listing k ([] : Equation K) = [(List.replicate k 0, .zero)] := rfl

theorem total_listing [LawfulExact K] {M : Type} [AddCommGroup M] [Module K M] (he : e.isExact) (k : ℕ)
    (f : List ℤ → M) : (e.listing k).total f = e.total f := by
  by_cases hne : e = []
  · subst hne
    rw [listing_nil, total_cons, total_nil, add_zero, Number.value_zero, zero_smul]
  · exact total_perm (listing_perm he hne k) f

/-- Reduced rows are listed without repeated exponents, and without a zero unless there is no row at
all. -/
theorem IsReduced.listing (h : e.IsReduced) (he : e.isExact) (k : ℕ) :
    ((e.listing k).map Prod.fst).Nodup ∧
      ((∀ r ∈ e.listing k, r.2.value ≠ 0) ∨
        e = [] ∧ e.listing k = [(List.replicate k 0, .zero)]) := by
  by_cases hne : e = []
  · subst hne
    exact ⟨List.nodup_singleton _, .inr ⟨rfl, rfl⟩⟩
  · have hperm := listing_perm he hne k
    exact ⟨(hperm.map Prod.fst).nodup_iff.mpr h.nodup,
      .inl fun r hr => h.nonzero r (hperm.mem_iff.mp hr)⟩

end Equation

end Orthant
