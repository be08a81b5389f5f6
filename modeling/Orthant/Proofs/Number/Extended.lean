import Mathlib
import Orthant.Value

/-! # Extended values

Doubles and quantities as extended real numbers. Away from `nan` the comparisons of doubles are those
of their values. A quantity is below a rational exactly when its value is: `nan`, which is below
nothing, has the greatest value.
-/

namespace Orthant

namespace Double

variable {x y : Double}

noncomputable def extended : Double → EReal
  | nan => ⊤
  | infinite false => ⊤
  | infinite true => ⊥
  | negZero => 0
  | finite q => ((q : ℝ) : EReal)

theorem lt_iff_extended_lt (hx : x.isNaN = false) (hy : y.isNaN = false) :
    x.lt y = true ↔ x.extended < y.extended := by
  rcases x with _ | (_ | _) | _ | p
  · cases hx
  all_goals
    rcases y with _ | (_ | _) | _ | q
    · cases hy
    all_goals simp [lt, extended]

theorem same_iff_extended_eq (hx : x.isNaN = false) (hy : y.isNaN = false) :
    x.same y = true ↔ x.extended = y.extended := by
  rcases x with _ | (_ | _) | _ | p
  · cases hx
  all_goals
    rcases y with _ | (_ | _) | _ | q
    · cases hy
    all_goals simp [same, extended, @eq_comm EReal 0]

end Double

namespace Quantity

noncomputable def extended : Quantity → EReal
  | bool b => ((if b then 1 else 0 : ℝ) : EReal)
  | int n => ((n : ℝ) : EReal)
  | rational q => ((q : ℝ) : EReal)
  | double x => x.extended

theorem below_iff_extended_lt {x : Quantity} {r : ℚ} :
    x.below r = true ↔ x.extended < ((r : ℝ) : EReal) := by
  have hagainst : ∀ q : ℚ, (if q < r then Ordering.lt else if r < q then .gt else .eq) = .lt ↔
      q < r := by
    intro q
    split
    case isTrue h => simp [h]
    case isFalse h => split <;> simp [h]
  simp only [below, beq_iff_eq]
  cases x with
  | bool b =>
    rw [compare?, Option.some.injEq, hagainst, extended, EReal.coe_lt_coe_iff]
    cases b <;> norm_cast
  | int n =>
    rw [compare?, Option.some.injEq, hagainst, extended, EReal.coe_lt_coe_iff]
    norm_cast
  | rational q => rw [compare?, Option.some.injEq, hagainst, extended, EReal.coe_lt_coe_iff,
      Rat.cast_lt]
  | double x =>
    rcases x with _ | (_ | _) | _ | q
    · simp [compare?, extended, Double.extended]
    · simp [compare?, extended, Double.extended]
    · simp [compare?, extended, Double.extended]
    · rw [compare?, Option.some.injEq, hagainst, extended, Double.extended, EReal.coe_pos,
        Rat.cast_pos]
    · rw [compare?, Option.some.injEq, hagainst, extended, Double.extended, EReal.coe_lt_coe_iff,
        Rat.cast_lt]

end Quantity

end Orthant
