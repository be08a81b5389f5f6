import Mathlib
import Orthant.Number.Power

/-! # Exact numbers in a field

Statements about exact numbers hold in every field of characteristic zero: the rationals, in which
the library calculates, the reals with their irrational numbers, and the complex numbers.
-/

namespace Orthant

/-- The rationals among the exact numbers are those of the field, and zero is told apart. -/
class LawfulExact (K : Type) [Field K] [Exact K] : Prop where
  ofRat_eq (q : ℚ) : (Exact.ofRat q : K) = q
  isZero_iff (x : K) : Exact.isZero x = true ↔ x = 0

instance : LawfulExact ℚ := ⟨fun q => (Rat.cast_id q).symm, fun _ => beq_iff_eq⟩

/-- The sign is that of an ordered field. -/
class SignedExact (K : Type) [Field K] [LinearOrder K] [Exact K] : Prop where
  isNegative_iff (x : K) : Exact.isNegative x = true ↔ x < 0

instance : SignedExact ℚ := ⟨fun _ => decide_eq_true_iff⟩

namespace Number

variable {K : Type} {a b : Number K}

theorem isUndefined_iff : a.isUndefined = true ↔ a = undefined := by
  cases a <;> simp [isUndefined]

variable [Exact K]

@[simp] theorem value_exact (x : K) : (exact x).value = x := rfl

theorem eq_exact (h : a.isExact) : a = exact a.value := by
  cases a <;> simp_all [isExact]

variable [Field K]

theorem add_exact (ha : a.isExact) (hb : b.isExact) : a.add b = exact (a.value + b.value) := by
  rw [eq_exact ha, eq_exact hb]
  rfl

theorem mul_exact (ha : a.isExact) (hb : b.isExact) : a.mul b = exact (a.value * b.value) := by
  rw [eq_exact ha, eq_exact hb]
  rfl

theorem pow_exact (ha : a.isExact) (n : ℤ) : a.pow n = exact (a.value ^ n) := by
  rw [eq_exact ha]
  rfl

variable [LawfulExact K]

@[simp] theorem value_zero : (zero : Number K).value = 0 :=
  (LawfulExact.ofRat_eq 0).trans Rat.cast_zero

@[simp] theorem value_one : (one : Number K).value = 1 :=
  (LawfulExact.ofRat_eq 1).trans Rat.cast_one

@[simp] theorem value_ofInt [CharZero K] (n : ℤ) : (ofInt n : Number K).value = n :=
  (LawfulExact.ofRat_eq n).trans (Rat.cast_intCast n)

theorem isZero_iff (ha : a.isExact) : a.isZero ↔ a.value = 0 := by
  rw [eq_exact ha]
  exact LawfulExact.isZero_iff _

end Number

end Orthant
