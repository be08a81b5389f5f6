import Mathlib
import Orthant.Number.Basic

/-! # Numbers that rounding keeps

Rounding to a grid of powers of two keeps what lies on it. What a double holds lies on the grid of any count
of bits that is at least that of a double, so that the numbers of a list can be made inexact without a loss.
-/

namespace Orthant

/-! ## The grid -/

theorem twoPow_eq (k : ℕ) : twoPow k = 2 ^ k := rfl

theorem scaleTwo_eq (m e : ℤ) : scaleTwo m e = m * (2 : ℚ) ^ e := by
  cases e with
  | ofNat k => simp [scaleTwo, twoPow_eq]
  | negSucc k => simp [scaleTwo, twoPow_eq, Rat.mkRat_eq_div, zpow_negSucc, div_eq_mul_inv]

theorem roundDiv_mul (n : ℤ) {d : ℕ} (hd : 0 < d) : roundDiv (n * d) d = n := by
  have hd' : (d : ℤ) ≠ 0 := by exact_mod_cast hd.ne'
  have hpos : (2 : ℤ) * 0 < d := by simpa using hd
  rw [roundDiv, Int.mul_ediv_cancel n hd', Int.mul_emod_left, if_pos hpos]

theorem roundTwo_scaleTwo (m e : ℤ) : roundTwo (scaleTwo m e) e = m := by
  generalize hq : scaleTwo m e = q
  rw [scaleTwo_eq] at hq
  have hden : (q.den : ℚ) ≠ 0 := by exact_mod_cast q.den_pos.ne'
  have hnum : (q.num : ℚ) = m * 2 ^ e * q.den := by
    rw [hq, Rat.mul_den_eq_num]
  cases e with
  | ofNat k =>
    have h : q.num = m * (q.den * twoPow k : ℕ) := by
      rw [Int.ofNat_eq_natCast, zpow_natCast] at hnum
      have : (q.num : ℚ) = ((m * (q.den * twoPow k : ℕ) : ℤ) : ℚ) := by
        rw [hnum, twoPow_eq]
        push_cast
        ring
      exact_mod_cast this
    rw [roundTwo, h]
    exact roundDiv_mul m (Nat.mul_pos q.den_pos (Nat.two_pow_pos k))
  | negSucc k =>
    have h : q.num * twoPow (k + 1) = m * q.den := by
      have hpow : ((2 : ℚ) ^ (k + 1)) ≠ 0 := by positivity
      have : ((q.num * twoPow (k + 1) : ℤ) : ℚ) = ((m * q.den : ℤ) : ℚ) := by
        push_cast
        rw [hnum, twoPow_eq, zpow_negSucc]
        push_cast
        field_simp
      exact_mod_cast this
    rw [roundTwo, h]
    exact roundDiv_mul m q.den_pos

theorem roundBits_scaleTwo {bits : ℕ} {m e : ℤ} {q : ℚ} (hq : q = scaleTwo m e)
    (he : floorLogTwo q.num.natAbs q.den - bits + 1 ≤ e) : roundBits bits q = q := by
  by_cases hzero : q.num = 0
  · rw [roundBits, if_pos hzero, Rat.num_eq_zero.mp hzero]
  · rw [roundBits, if_neg hzero]
    dsimp only
    generalize floorLogTwo q.num.natAbs q.den - bits + 1 = e' at he ⊢
    obtain ⟨k, rfl⟩ := Int.le.dest he
    have hfine : q = scaleTwo (m * 2 ^ k) e' := by
      rw [hq, scaleTwo_eq, scaleTwo_eq, zpow_add₀ two_ne_zero, zpow_natCast]
      push_cast
      ring
    rw [hfine, roundTwo_scaleTwo]

/-! ## Doubles -/

theorem roundBits_of_double {q : ℚ} (h : (Double.ofRat q).value? = some q) {bits : ℕ}
    (hbits : doubleBits ≤ bits) : roundBits bits q = q := by
  have hbits : (53 : ℤ) ≤ bits := by exact_mod_cast hbits
  by_cases hzero : q.num = 0
  · rw [roundBits, if_pos hzero, Rat.num_eq_zero.mp hzero]
  · rw [Double.ofRat, if_neg hzero] at h
    dsimp only at h
    split at h
    case isTrue =>
      have : q = 0 := by split at h <;> exact (Option.some.inj h).symm
      exact absurd (by rw [this]; rfl) hzero
    case isFalse =>
      split at h
      case isTrue => cases h
      case isFalse =>
        refine roundBits_scaleTwo (Option.some.inj h).symm ?_
        have := le_max_left (floorLogTwo q.num.natAbs q.den - 52) Double.minExponent
        omega

namespace Number

variable {c : Number} {cs : List Number} {k : ℕ}

/-- A number that a double holds, and that is known to the bits of a double at least if it is inexact. -/
structure IsDouble (c : Number) : Prop where
  double : c.toDouble.value? = some c.value
  bits : c.isApprox → doubleBits ≤ c.bits

theorem isDouble_zero : zero.IsDouble := ⟨rfl, nofun⟩

theorem IsDouble.toApprox (h : c.IsDouble) (hk : doubleBits ≤ k) :
    (c.toApprox k).IsDouble ∧ (c.toApprox k).value = c.value := by
  cases c with
  | exact q =>
    have hq : Exact.roundBits k q = q := roundBits_of_double h.double hk
    rw [Number.toApprox, hq]
    exact ⟨⟨h.double, fun _ => hk⟩, rfl⟩
  | approx l q =>
    have hq : roundBits k q = q := roundBits_of_double h.double hk
    rw [Number.toApprox, hq]
    exact ⟨⟨h.double, fun _ => hk⟩, rfl⟩
  | infinite s => cases h.double
  | undefined => cases h.double

theorem foldl_max_eq_zero_or {l : List ℕ} {m n : ℕ} (h : ∀ x ∈ l, x = 0 ∨ n ≤ x) (hm : m = 0 ∨ n ≤ m) :
    l.foldl max m = 0 ∨ n ≤ l.foldl max m := by
  induction l generalizing m with
  | nil => exact hm
  | cons x l ih =>
    obtain ⟨hx, hl⟩ := List.forall_mem_cons.mp h
    exact ih hl (by omega)

theorem maxBits_eq_zero_or (h : ∀ c ∈ cs, c.IsDouble) : maxBits cs = 0 ∨ doubleBits ≤ maxBits cs := by
  refine foldl_max_eq_zero_or (fun x hx => ?_) (.inl rfl)
  obtain ⟨c, hc, rfl⟩ := List.mem_map.mp hx
  cases c with
  | approx k q => exact .inr ((h _ hc).bits rfl)
  | exact | infinite | undefined => exact .inl rfl

theorem exists_unify (h : ∀ c ∈ cs, c.IsDouble) :
    ∃ g : Number → Number, unify cs = cs.map g ∧ ∀ c ∈ cs, (g c).IsDouble ∧ (g c).value = c.value := by
  rcases maxBits_eq_zero_or h with hzero | hbits
  · exact ⟨id, by simp [unify, hzero], fun c hc => ⟨h c hc, rfl⟩⟩
  · have hne : maxBits cs ≠ 0 := by
      have : 0 < doubleBits := by decide
      omega
    exact ⟨Number.toApprox (maxBits cs), by rw [unify, if_neg hne], fun c hc => (h c hc).toApprox hbits⟩

end Number

end Orthant
