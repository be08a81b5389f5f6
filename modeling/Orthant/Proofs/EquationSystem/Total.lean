import Mathlib
import Orthant.EquationSystem.General
import Orthant.Proofs.Number.Exact

/-! # Equations as sums

Once every exponent has a value, an equation is the sum of these values times the coefficients.
Collecting rows keeps this sum as long as the coefficients are exact, logarithmic derivatives and
specialization change the values of the exponents, and so the sum tells which polynomial an equation
is without looking at the order of its rows.
-/

namespace Orthant

namespace Equation

variable {K : Type} {e : Equation K} {rows : List (Row K)} {r : Row K}

theorem isExact_iff : e.isExact ↔ ∀ r ∈ e, r.2.isExact := by
  simp [isExact]

variable {M : Type} [Field K] [Exact K] [AddCommGroup M] [Module K M]

/-- The sum of the values of all exponents, each times its coefficient. -/
def total (e : Equation K) (f : List ℤ → M) : M := (e.map fun r => r.2.value • f r.1).sum

@[simp] theorem total_nil (f : List ℤ → M) :
    total ([] : Equation K) f = 0 := rfl

@[simp] theorem total_cons (r : Row K) (e : Equation K) (f : List ℤ → M) :
    total (r :: e) f = r.2.value • f r.1 + total e f := by
  simp [total]

@[simp] theorem total_append (e e' : Equation K) (f : List ℤ → M) :
    total (e ++ e') f = total e f + total e' f := by
  simp [total]

theorem total_perm {e' : Equation K} (h : e.Perm e') (f : List ℤ → M) : total e f = total e' f :=
  (h.map _).sum_eq

theorem total_congr {f g : List ℤ → M} (h : ∀ r ∈ e, f r.1 = g r.1) : total e f = total e g := by
  rw [total, total]
  congr 1
  exact List.map_congr_left fun r hr => by rw [h r hr]

theorem total_terms (s : Support K) (f : List ℤ → M) :
    total s.terms f = total s.positiveTerms f + total s.negativeTerms f := by
  rw [add_comm, ← total_append]
  exact (total_perm (List.filter_append_perm _ _) f).symm

/-! ## Collecting -/

theorem isExact_insert (hr : r.2.isExact) (he : e.isExact) : (insert r e).isExact := by
  induction e with
  | nil =>
    rw [insert]
    split
    · exact he
    · simpa [isExact_iff] using hr
  | cons s e ih =>
    simp only [isExact_iff, List.forall_mem_cons] at he ih ⊢
    rw [insert]
    split
    · have hsum : (s.2.add r.2).isExact := by rw [Number.add_exact he.1 hr]; rfl
      simp only
      split
      · exact he.2
      · exact List.forall_mem_cons.mpr ⟨hsum, he.2⟩
    · exact List.forall_mem_cons.mpr ⟨he.1, ih he.2⟩

theorem isExact_foldl (hrows : ∀ r ∈ rows, r.2.isExact) (he : e.isExact) :
    (rows.foldl (fun acc r => insert r acc) e).isExact := by
  induction rows generalizing e with
  | nil => exact he
  | cons r rows ih =>
    obtain ⟨hr, hrows⟩ := List.forall_mem_cons.mp hrows
    exact ih hrows (isExact_insert hr he)

theorem collect_eq_foldl (hrows : ∀ r ∈ rows, r.2.isExact) (width : ℕ) :
    collect width rows = rows.foldl (fun acc r => insert r acc) [] := by
  have hexact := isExact_foldl hrows (isExact_iff.mpr (by simp) : isExact [])
  rw [collect, if_neg]
  intro h
  obtain ⟨r, hr, hu⟩ := List.any_eq_true.mp h
  have := isExact_iff.mp hexact r hr
  rw [Number.isUndefined_iff.mp hu] at this
  cases this

theorem isExact_collect (hrows : ∀ r ∈ rows, r.2.isExact) (width : ℕ) :
    (collect width rows).isExact := by
  rw [collect_eq_foldl hrows]
  exact isExact_foldl hrows (isExact_iff.mpr (by simp))

/-- Exponents are neither made up nor changed by collecting. -/
theorem mem_insert {s : Row K} (h : s ∈ insert r e) : s.1 = r.1 ∨ ∃ s' ∈ e, s.1 = s'.1 := by
  induction e with
  | nil =>
    rw [insert] at h
    split at h
    · simp at h
    · exact .inl (by rw [List.mem_singleton.mp h])
  | cons s' e ih =>
    rw [insert] at h
    split at h
    case isTrue hs =>
      simp only at h
      split at h
      · exact .inr ⟨s, List.mem_cons_of_mem _ h, rfl⟩
      · rcases List.mem_cons.mp h with rfl | h
        · exact .inl hs
        · exact .inr ⟨s, List.mem_cons_of_mem _ h, rfl⟩
    case isFalse =>
      rcases List.mem_cons.mp h with rfl | h
      · exact .inr ⟨s, List.mem_cons_self, rfl⟩
      · rcases ih h with h | ⟨s', hs', h⟩
        · exact .inl h
        · exact .inr ⟨s', List.mem_cons_of_mem _ hs', h⟩

theorem exponent_of_mem_foldl {s : Row K} (h : s ∈ rows.foldl (fun acc r => insert r acc) e) :
    ∃ r ∈ rows ++ e, s.1 = r.1 := by
  induction rows generalizing e with
  | nil => exact ⟨s, h, rfl⟩
  | cons r rows ih =>
    obtain ⟨s', hs', hs⟩ := ih h
    rcases List.mem_append.mp hs' with hs' | hs'
    · exact ⟨s', by simp [hs'], hs⟩
    · rcases mem_insert hs' with hr | ⟨s'', hs'', hr⟩
      · exact ⟨r, by simp, hs.trans hr⟩
      · exact ⟨s'', by simp [hs''], hs.trans hr⟩

theorem exponent_of_mem_collect (hrows : ∀ r ∈ rows, r.2.isExact) {width : ℕ} {s : Row K}
    (h : s ∈ collect width rows) : ∃ r ∈ rows, s.1 = r.1 := by
  rw [collect_eq_foldl hrows] at h
  simpa using exponent_of_mem_foldl h

/-! ## Sums -/

section Sums

variable [LawfulExact K]

theorem total_insert (hr : r.2.isExact) (he : e.isExact) (f : List ℤ → M) :
    total (insert r e) f = r.2.value • f r.1 + total e f := by
  induction e with
  | nil =>
    rw [insert]
    split
    case isTrue hz => simp [(Number.isZero_iff hr).mp hz]
    case isFalse => simp
  | cons s e ih =>
    simp only [isExact_iff, List.forall_mem_cons] at he ih
    have hadd := Number.add_exact he.1 hr
    rw [insert]
    split
    case isTrue hs =>
      have hsum : (s.2.add r.2).value = s.2.value + r.2.value := by rw [hadd]; rfl
      have hexact : (s.2.add r.2).isExact := by rw [hadd]; rfl
      simp only
      split
      case isTrue hz =>
        have hzero : s.2.value + r.2.value = 0 := hsum ▸ (Number.isZero_iff hexact).mp hz
        rw [total_cons, ← hs, ← add_assoc, ← add_smul, add_comm r.2.value, hzero, zero_smul,
          zero_add]
      case isFalse =>
        rw [total_cons, total_cons, hsum, ← hs, add_smul]
        abel
    case isFalse =>
      rw [total_cons, total_cons, ih he.2]
      abel

theorem total_foldl (hrows : ∀ r ∈ rows, r.2.isExact) (he : e.isExact) (f : List ℤ → M) :
    total (rows.foldl (fun acc r => insert r acc) e) f = total rows f + total e f := by
  induction rows generalizing e with
  | nil => simp
  | cons r rows ih =>
    obtain ⟨hr, hrows⟩ := List.forall_mem_cons.mp hrows
    rw [List.foldl_cons, ih hrows (isExact_insert hr he), total_insert hr he, total_cons]
    abel

/-- Collecting exact rows keeps their sum. -/
theorem total_collect (hrows : ∀ r ∈ rows, r.2.isExact) (width : ℕ) (f : List ℤ → M) :
    total (collect width rows) f = total rows f := by
  rw [collect_eq_foldl hrows, total_foldl hrows (isExact_iff.mpr (by simp)) f, total_nil, add_zero]

end Sums

/-! ## Logarithmic derivatives -/

theorem isExact_logDerivative (he : e.isExact) (place : ℕ) : (e.logDerivative place).isExact := by
  rw [isExact_iff] at he ⊢
  intro r hr
  obtain ⟨s, hs, rfl⟩ := List.mem_map.mp hr
  have hs := he s (List.mem_of_mem_filter hs)
  simp only [Number.mul_exact hs (show (Number.ofInt _).isExact from rfl)]
  rfl

variable [LawfulExact K] [CharZero K]

theorem total_logDerivative (he : e.isExact) (place : ℕ) (f : List ℤ → M) :
    total (e.logDerivative place) f = total e fun a => ((a.getD place 0 : ℤ) : K) • f a := by
  induction e with
  | nil => rfl
  | cons r e ih =>
    rw [isExact_iff, List.forall_mem_cons] at he
    have hcons : logDerivative (r :: e) place =
        if r.1.getD place 0 = 0 then logDerivative e place
        else (r.1, r.2.mul (.ofInt (r.1.getD place 0))) :: logDerivative e place := by
      simp only [logDerivative, List.filter_cons, bne_iff_ne, ite_not]
      split <;> rfl
    rw [hcons]
    split
    case isTrue hr => rw [ih (isExact_iff.mpr he.2), total_cons, hr]; simp
    case isFalse =>
      rw [total_cons, ih (isExact_iff.mpr he.2), total_cons,
        Number.mul_exact he.1 (show (Number.ofInt _).isExact from rfl), smul_smul,
        Number.value_exact, Number.value_ofInt]

end Equation

namespace EquationSystem

variable {K : Type} [Field K] [Exact K] {f : Equation K} {n : ℕ}

theorem isExact_criticalEquations (hf : f.isExact) : ∀ e ∈ criticalEquations n f, e.isExact := by
  intro e he
  rcases List.mem_cons.mp he with rfl | he
  · exact hf
  · obtain ⟨i, -, rfl⟩ := List.mem_map.mp he
    exact Equation.isExact_logDerivative hf _

theorem exponent_of_mem_criticalEquations {e : Equation K} (he : e ∈ criticalEquations n f) {r : Row K}
    (hr : r ∈ e) : ∃ s ∈ f, r.1 = s.1 := by
  rcases List.mem_cons.mp he with rfl | he
  · exact ⟨r, hr, rfl⟩
  · obtain ⟨i, -, rfl⟩ := List.mem_map.mp he
    obtain ⟨s, hs, rfl⟩ := List.mem_map.mp hr
    exact ⟨s, List.mem_of_mem_filter hs, rfl⟩

theorem total_criticalEquations {M : Type} [AddCommGroup M] [Module K M] [LawfulExact K]
    [CharZero K] (hf : f.isExact) (g : List ℤ → M) :
    (criticalEquations n f).map (Equation.total · g) = f.total g ::
      (List.range n).map fun i => f.total fun a => ((a.getD (i + 1) 0 : ℤ) : K) • g a := by
  simp only [criticalEquations, List.map_cons, List.map_map, List.cons.injEq, true_and]
  exact List.map_congr_left fun i _ => Equation.total_logDerivative hf _ g

end EquationSystem

end Orthant
