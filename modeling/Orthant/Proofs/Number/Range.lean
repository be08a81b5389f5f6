import Mathlib
import Orthant.Proofs.Number.Rounding

/-! # Numbers beyond the doubles

The nearest double of a number is an infinity exactly if the magnitude is at least halfway between the
largest double and the power of two after it. The power of two has the even significand, so that the
number halfway belongs to the infinities.
-/

namespace Orthant

/-! ## Binary exponents -/

section Exponent

variable {n d : ℕ}

theorem floorLogTwo_eq (n : ℕ) (hd : d ≠ 0) : floorLogTwo n d =
    if (n : ℚ) / d < 2 ^ ((n.log2 : ℤ) - d.log2) then (n.log2 : ℤ) - d.log2 - 1
    else (n.log2 : ℤ) - d.log2 := by
  have hpos : (0 : ℚ) < d := by exact_mod_cast Nat.pos_of_ne_zero hd
  unfold floorLogTwo
  dsimp only
  generalize (n.log2 : ℤ) - d.log2 = l
  cases l with
  | ofNat k =>
    refine if_congr ?_ rfl rfl
    rw [decide_eq_true_iff, Int.ofNat_eq_natCast, zpow_natCast, div_lt_iff₀ hpos, mul_comm, twoPow_eq]
    exact_mod_cast Iff.rfl
  | negSucc k =>
    refine if_congr ?_ rfl rfl
    rw [decide_eq_true_iff, zpow_negSucc, div_lt_iff₀ hpos, ← div_eq_inv_mul,
      lt_div_iff₀ (by positivity), twoPow_eq]
    exact_mod_cast Iff.rfl

theorem floorLogTwo_spec (hn : n ≠ 0) (hd : d ≠ 0) :
    (2 : ℚ) ^ floorLogTwo n d ≤ n / d ∧ (n : ℚ) / d < 2 ^ (floorLogTwo n d + 1) := by
  have hpos : (0 : ℚ) < d := by exact_mod_cast Nat.pos_of_ne_zero hd
  have hn_low : (2 : ℚ) ^ n.log2 ≤ n := by exact_mod_cast Nat.log2_self_le hn
  have hn_high : (n : ℚ) < 2 ^ (n.log2 + 1) := by exact_mod_cast Nat.lt_log2_self
  have hd_low : (2 : ℚ) ^ d.log2 ≤ d := by exact_mod_cast Nat.log2_self_le hd
  have hd_high : (d : ℚ) < 2 ^ (d.log2 + 1) := by exact_mod_cast Nat.lt_log2_self
  have hlow : (2 : ℚ) ^ ((n.log2 : ℤ) - d.log2 - 1) ≤ n / d := by
    rw [le_div_iff₀ hpos, sub_sub, zpow_sub₀ two_ne_zero, zpow_natCast, div_mul_eq_mul_div,
      div_le_iff₀ (by positivity)]
    exact_mod_cast mul_le_mul hn_low hd_high.le hpos.le (by positivity)
  have hhigh : (n : ℚ) / d < 2 ^ ((n.log2 : ℤ) - d.log2 + 1) := by
    rw [div_lt_iff₀ hpos, sub_add_eq_add_sub, zpow_sub₀ two_ne_zero, zpow_natCast,
      div_mul_eq_mul_div, lt_div_iff₀ (by positivity)]
    exact_mod_cast mul_lt_mul hn_high hd_low (by positivity) (by positivity)
  rw [floorLogTwo_eq n hd]
  split
  case isTrue hlt =>
    rw [sub_add_cancel]
    exact ⟨hlow, hlt⟩
  case isFalse hlt => exact ⟨not_lt.mp hlt, hhigh⟩

end Exponent

/-! ## Nearest integers -/

section Nearest

variable {n m : ℤ} {d : ℕ} {q : ℚ} {e : ℤ}

theorem roundDiv_compare (hm : Even m) (hd : 0 < d) :
    (m ≤ roundDiv n d ↔ (2 * m - 1) * d ≤ 2 * n) ∧ (roundDiv n d ≤ m ↔ 2 * n ≤ (2 * m + 1) * d) := by
  have hd' : (0 : ℤ) < d := by exact_mod_cast hd
  have hn := Int.mul_ediv_add_emod n d
  have hr := Int.emod_nonneg n hd'.ne'
  have hlt := Int.emod_lt_of_pos n hd'
  unfold roundDiv
  dsimp only
  generalize n / (d : ℤ) = k at hn ⊢
  generalize n % (d : ℤ) = r at hn hr hlt ⊢
  obtain ⟨t, rfl⟩ : ∃ t, m = k + t := ⟨m - k, by ring⟩
  have hlow : (2 * (k + t) - 1) * (d : ℤ) ≤ 2 * n ↔ (2 * t - 1) * (d : ℤ) ≤ 2 * r := by
    rw [← hn]
    constructor <;> intro h <;> linarith
  have hhigh : 2 * n ≤ (2 * (k + t) + 1) * (d : ℤ) ↔ 2 * r ≤ (2 * t + 1) * (d : ℤ) := by
    rw [← hn]
    constructor <;> intro h <;> linarith
  rw [hlow, hhigh]
  obtain ⟨j, hj⟩ := hm
  obtain ht | rfl | rfl | ht : t < 0 ∨ t = 0 ∨ t = 1 ∨ 1 < t := by omega
  · have h : (2 * t - 1) * (d : ℤ) ≤ 2 * r := by nlinarith
    have h' : ¬ 2 * r ≤ (2 * t + 1) * (d : ℤ) := by nlinarith
    refine ⟨iff_of_true ?_ h, iff_of_false ?_ h'⟩ <;> split_ifs <;> omega
  · constructor <;> split_ifs <;> omega
  · constructor <;> split_ifs <;> omega
  · have h : ¬ (2 * t - 1) * (d : ℤ) ≤ 2 * r := by nlinarith
    have h' : 2 * r ≤ (2 * t + 1) * (d : ℤ) := by nlinarith
    refine ⟨iff_of_false ?_ h, iff_of_true ?_ h'⟩ <;> split_ifs <;> omega

theorem roundTwo_compare (hm : Even m) :
    (m ≤ roundTwo q e ↔ (2 * m - 1) * (2 : ℚ) ^ e ≤ 2 * q) ∧
      (roundTwo q e ≤ m ↔ 2 * q ≤ (2 * m + 1) * (2 : ℚ) ^ e) := by
  have hden : (0 : ℚ) < q.den := by exact_mod_cast q.den_pos
  have hq : q = q.num / q.den := (Rat.num_div_den q).symm
  have htwo : ∀ k : ℕ, (0 : ℚ) < 2 ^ k := fun k => by positivity
  cases e with
  | ofNat k =>
    obtain ⟨hlow, hhigh⟩ := roundDiv_compare (n := q.num) (d := q.den * twoPow k) hm
      (Nat.mul_pos q.den_pos (Nat.two_pow_pos k))
    rw [roundTwo, hlow, hhigh, Int.ofNat_eq_natCast, zpow_natCast]
    constructor
    · rw [hq, mul_div_assoc', le_div_iff₀ hden, mul_assoc, mul_comm ((2 : ℚ) ^ k)]
      simp only [Rat.num_div_den, twoPow_eq]
      exact_mod_cast Iff.rfl
    · rw [hq, mul_div_assoc', div_le_iff₀ hden, mul_assoc, mul_comm ((2 : ℚ) ^ k)]
      simp only [Rat.num_div_den, twoPow_eq]
      exact_mod_cast Iff.rfl
  | negSucc k =>
    obtain ⟨hlow, hhigh⟩ := roundDiv_compare (n := q.num * twoPow (k + 1)) hm q.den_pos
    rw [roundTwo, hlow, hhigh, zpow_negSucc, ← div_eq_mul_inv, ← div_eq_mul_inv,
      div_le_iff₀ (htwo _), le_div_iff₀ (htwo _)]
    constructor
    · rw [hq, mul_div_assoc', div_mul_eq_mul_div, le_div_iff₀ hden, mul_assoc 2]
      simp only [Rat.num_div_den, twoPow_eq]
      exact_mod_cast Iff.rfl
    · rw [hq, mul_div_assoc', div_mul_eq_mul_div, div_le_iff₀ hden, mul_assoc 2]
      simp only [Rat.num_div_den, twoPow_eq]
      exact_mod_cast Iff.rfl

theorem le_abs_roundTwo_iff (hm : Even m) :
    m ≤ |roundTwo q e| ↔ (2 * m - 1) * (2 : ℚ) ^ e ≤ 2 * |q| := by
  have hneg := (roundTwo_compare (q := q) (e := e) hm.neg).2
  rw [le_abs, le_neg, (roundTwo_compare hm).1, hneg, ← abs_two, ← abs_mul, abs_two, le_abs]
  refine or_congr_right ?_
  push_cast
  constructor <;> intro h <;> linarith

end Nearest

/-! ## Signs -/

theorem roundBits_neg_iff {bits : ℕ} (hbits : bits ≠ 0) {q : ℚ} : roundBits bits q < 0 ↔ q < 0 := by
  rcases eq_or_ne q 0 with rfl | hq
  · simp [roundBits]
  have hden : (0 : ℚ) < q.den := by exact_mod_cast q.den_pos
  have habs : (q.num.natAbs : ℚ) / q.den = |q| := by
    rw [Nat.cast_natAbs, Int.cast_abs, ← abs_of_pos hden, ← abs_div, Rat.num_div_den]
  have hlow := (floorLogTwo_spec (Int.natAbs_ne_zero.mpr (Rat.num_ne_zero.mpr hq)) q.den_ne_zero).1
  rw [habs] at hlow
  rw [roundBits, if_neg (Rat.num_ne_zero.mpr hq)]
  dsimp only
  set e := floorLogTwo q.num.natAbs q.den - bits + 1 with he
  have hpos : (0 : ℚ) < 2 ^ e := by positivity
  have hle : (2 : ℚ) ^ e ≤ |q| :=
    (zpow_le_zpow_right₀ one_le_two (by omega)).trans hlow
  obtain ⟨hnonneg, -⟩ := roundTwo_compare (q := q) (e := e) (m := 0) Even.zero
  have hsign : scaleTwo (roundTwo q e) e < 0 ↔ roundTwo q e < 0 := by
    rw [scaleTwo_eq, ← Int.cast_lt_zero (R := ℚ)]
    exact ⟨fun h => neg_of_mul_neg_left h hpos.le, fun h => mul_neg_of_neg_of_pos h hpos⟩
  rw [hsign, ← not_le, hnonneg, ← not_le]
  rcases abs_cases q with ⟨habs, h⟩ | ⟨habs, h⟩ <;> rw [habs] at hle
  · refine iff_of_false (fun hlt => hlt ?_) (not_not.mpr h)
    push_cast
    linarith
  · refine iff_of_true (fun hnot => ?_) (not_le.mpr h)
    push_cast at hnot
    linarith

namespace Number

theorem isNegative_toApprox {k : ℕ} (hk : k ≠ 0) (c : Number) :
    (c.toApprox k).isNegative = c.isNegative := by
  cases c with
  | exact q => exact decide_eq_decide.mpr (roundBits_neg_iff hk)
  | approx l q => exact decide_eq_decide.mpr (roundBits_neg_iff hk)
  | infinite | undefined => rfl

theorem toApprox_eq_undefined {k : ℕ} {c : Number} : c.toApprox k = .undefined ↔ c = .undefined := by
  cases c <;> simp [toApprox]

theorem exists_unify_sign (cs : List Number) : ∃ g : Number → Number, unify cs = cs.map g ∧
    ∀ c, (g c).isNegative = c.isNegative ∧ (g c = .undefined ↔ c = .undefined) := by
  by_cases hzero : maxBits cs = 0
  · exact ⟨id, by rw [unify, if_pos hzero, List.map_id], fun c => ⟨rfl, Iff.rfl⟩⟩
  · exact ⟨toApprox (maxBits cs), if_neg hzero,
      fun c => ⟨isNegative_toApprox hzero c, toApprox_eq_undefined⟩⟩

end Number

/-! ## Doubles -/

namespace Double

section Range

variable {q v : ℚ} {m e : ℤ}

theorem le_num_natAbs_iff : (twoPow 1024 : ℕ) ≤ v.num.natAbs ∧ v.den = 1 ↔
    (2 : ℚ) ^ 1024 ≤ |v| ∧ v.den = 1 := by
  refine and_congr_left fun hden => ?_
  have hv : |v| = (v.num.natAbs : ℚ) := by
    rw [Nat.cast_natAbs, Int.cast_abs, (Rat.den_eq_one_iff v).mp hden]
  rw [hv, twoPow_eq]
  exact_mod_cast Iff.rfl

theorem den_scaleTwo (he : 0 ≤ e) : (scaleTwo m e).den = 1 := by
  obtain ⟨k, rfl⟩ := Int.eq_ofNat_of_zero_le he
  exact Rat.den_intCast _

/-- What rounding to a double knows about the exponent of the last place. -/
structure IsPlace (q : ℚ) (e : ℤ) : Prop where
  lt_scaled : |q| < 2 ^ 53 * (2 : ℚ) ^ e
  le_scaled : minExponent < e → 2 ^ 52 * (2 : ℚ) ^ e ≤ |q|

theorem isPlace_floorLogTwo (hq : q ≠ 0) :
    IsPlace q (max (floorLogTwo q.num.natAbs q.den - 52) minExponent) := by
  have hden : (0 : ℚ) < q.den := by exact_mod_cast q.den_pos
  have habs : (q.num.natAbs : ℚ) / q.den = |q| := by
    rw [Nat.cast_natAbs, Int.cast_abs, ← abs_of_pos hden, ← abs_div, Rat.num_div_den]
  obtain ⟨hlow, hhigh⟩ := floorLogTwo_spec (Int.natAbs_ne_zero.mpr (Rat.num_ne_zero.mpr hq)) q.den_ne_zero
  rw [habs] at hlow hhigh
  generalize floorLogTwo q.num.natAbs q.den = l at hlow hhigh ⊢
  constructor
  · have hle : l + 1 ≤ 53 + max (l - 52) minExponent := by omega
    have hpow : (2 : ℚ) ^ 53 * 2 ^ max (l - 52) minExponent = 2 ^ (53 + max (l - 52) minExponent) := by
      rw [zpow_add₀ two_ne_zero]
      rfl
    rw [hpow]
    exact hhigh.trans_le (zpow_le_zpow_right₀ one_le_two hle)
  · intro hmin
    have hmax : max (l - 52) minExponent = l - 52 := max_eq_left (by omega)
    have hpow : (2 : ℚ) ^ 52 * 2 ^ (l - 52) = 2 ^ l := by
      rw [zpow_sub₀ two_ne_zero]
      field_simp
    rw [hmax, hpow]
    exact hlow

theorem IsPlace.abs_roundTwo_le (h : IsPlace q e) : |(roundTwo q e : ℚ)| ≤ 2 ^ 53 + 1 := by
  have hpos : (0 : ℚ) < 2 ^ e := by positivity
  have hnot : ¬ (2 ^ 53 + 2 : ℤ) ≤ |roundTwo q e| := by
    rw [le_abs_roundTwo_iff (by decide)]
    have := h.lt_scaled
    push_cast
    linarith
  have hle : |roundTwo q e| ≤ 2 ^ 53 + 1 := by omega
  exact_mod_cast hle

theorem IsPlace.nonneg (h : IsPlace q e) (hle : (2 : ℚ) ^ 1024 ≤ |(roundTwo q e : ℚ)| * 2 ^ e) :
    0 ≤ e := by
  by_contra hneg
  have hunit : (2 : ℚ) ^ e ≤ 1 := zpow_le_one_of_nonpos₀ one_le_two (not_le.mp hneg).le
  have htop : (2 : ℚ) ^ 54 ≤ 2 ^ 1024 := pow_le_pow_right₀ one_le_two (by decide)
  have hsmall : |(roundTwo q e : ℚ)| * 2 ^ e ≤ (2 ^ 53 + 1) * 1 :=
    mul_le_mul h.abs_roundTwo_le hunit (by positivity) (by positivity)
  exact absurd (htop.trans (hle.trans hsmall)) (by norm_num)

/-! The last place of the largest doubles is worth `2 ^ 971`. -/

theorem two_zpow_shift (k : ℕ) : (2 : ℚ) ^ (970 + k : ℤ) = 2 ^ k * 2 ^ 970 := by
  rw [zpow_add₀ two_ne_zero, zpow_natCast, mul_comm]
  rfl

theorem two_pow_top : (2 : ℚ) ^ 1024 = 2 ^ 54 * 2 ^ 970 := by rw [← pow_add]

theorem IsPlace.scaled_lt (h : IsPlace q e) (he : e ≤ 970) :
    |(roundTwo q e : ℚ)| * 2 ^ e < 2 ^ 1024 ∧ |q| < 2 ^ 1024 - 2 ^ 970 := by
  have hround := h.abs_roundTwo_le
  have hlt := h.lt_scaled
  have hunit : (0 : ℚ) < 2 ^ 970 := by positivity
  have hp : (2 : ℚ) ^ e ≤ 2 ^ 970 := by
    simpa using (zpow_le_zpow_right₀ one_le_two he).trans_eq (two_zpow_shift 0)
  rw [two_pow_top]
  generalize (2 : ℚ) ^ 970 = u at hp hunit ⊢
  constructor
  · calc |(roundTwo q e : ℚ)| * 2 ^ e ≤ (2 ^ 53 + 1) * u := by gcongr
      _ < 2 ^ 54 * u := by linarith
  · calc |q| < 2 ^ 53 * 2 ^ e := hlt
      _ ≤ 2 ^ 53 * u := by gcongr
      _ < 2 ^ 54 * u - u := by linarith

theorem le_scaled_top_iff : (2 : ℚ) ^ 1024 ≤ |(roundTwo q 971 : ℚ)| * 2 ^ (971 : ℤ) ↔
    (2 : ℚ) ^ 1024 - 2 ^ 970 ≤ |q| := by
  have hp : (2 : ℚ) ^ (971 : ℤ) = 2 * 2 ^ 970 := by simpa using two_zpow_shift 1
  have hunit : (0 : ℚ) < 2 ^ 970 := by positivity
  have hhalf := le_abs_roundTwo_iff (q := q) (e := 971) (m := 2 ^ 53) (by decide)
  have hcast : (2 ^ 53 : ℤ) ≤ |roundTwo q 971| ↔ (2 : ℚ) ^ 53 ≤ |(roundTwo q 971 : ℚ)| := by
    exact_mod_cast Iff.rfl
  rw [hcast] at hhalf
  rw [two_pow_top]
  rw [hp] at hhalf ⊢
  generalize (2 : ℚ) ^ 970 = u at hhalf hunit ⊢
  have hdouble : (2 : ℚ) ^ 54 * u = 2 ^ 53 * (2 * u) := by ring
  rw [hdouble, mul_le_mul_iff_left₀ (by positivity), hhalf]
  push_cast
  constructor <;> intro h <;> linarith

theorem IsPlace.le_scaled_of_le (h : IsPlace q e) (he : 972 ≤ e) :
    (2 : ℚ) ^ 1024 ≤ |(roundTwo q e : ℚ)| * 2 ^ e ∧ (2 : ℚ) ^ 1024 - 2 ^ 970 ≤ |q| := by
  have hunit : (0 : ℚ) < 2 ^ 970 := by positivity
  have hp : (2 : ℚ) ^ 2 * 2 ^ 970 ≤ 2 ^ e :=
    (two_zpow_shift 2).symm.trans_le (zpow_le_zpow_right₀ one_le_two he)
  have hpos : (0 : ℚ) < 2 ^ e := by positivity
  have hge := h.le_scaled (lt_of_lt_of_le (by decide) he)
  have hwhole : (2 : ℚ) ^ 52 ≤ |(roundTwo q e : ℚ)| := by
    have hwhole : (2 ^ 52 : ℤ) ≤ |roundTwo q e| := by
      rw [le_abs_roundTwo_iff (by decide)]
      generalize (2 : ℚ) ^ e = p at hge hpos ⊢
      push_cast
      linarith
    exact_mod_cast hwhole
  rw [two_pow_top]
  generalize (2 : ℚ) ^ 970 = u at hp hunit ⊢
  constructor
  · calc (2 : ℚ) ^ 54 * u = 2 ^ 52 * (2 ^ 2 * u) := by ring
      _ ≤ |(roundTwo q e : ℚ)| * 2 ^ e := by gcongr
  · calc (2 : ℚ) ^ 54 * u - u ≤ 2 ^ 52 * (2 ^ 2 * u) := by linarith
      _ ≤ 2 ^ 52 * 2 ^ e := by gcongr
      _ ≤ |q| := hge

theorem IsPlace.le_scaled_iff (h : IsPlace q e) :
    (2 : ℚ) ^ 1024 ≤ |(roundTwo q e : ℚ)| * 2 ^ e ↔ (2 : ℚ) ^ 1024 - 2 ^ 970 ≤ |q| := by
  obtain he | rfl | he : e ≤ 970 ∨ e = 971 ∨ 972 ≤ e := by omega
  · exact iff_of_false (h.scaled_lt he).1.not_ge (h.scaled_lt he).2.not_ge
  · exact le_scaled_top_iff
  · exact iff_of_true (h.le_scaled_of_le he).1 (h.le_scaled_of_le he).2

theorem ofRat_eq_infinite_iff :
    (∃ s, ofRat q = .infinite s) ↔ (2 : ℚ) ^ 1024 - 2 ^ 970 ≤ |q| := by
  by_cases hq : q = 0
  · subst hq
    refine iff_of_false ?_ ?_
    · rintro ⟨s, h⟩
      cases h
    · have hlt : (2 : ℚ) ^ 970 < 2 ^ 1024 := pow_lt_pow_right₀ one_lt_two (by decide)
      simpa using hlt
  · have hplace := isPlace_floorLogTwo hq
    rw [← hplace.le_scaled_iff]
    unfold ofRat
    rw [if_neg (Rat.num_ne_zero.mpr hq)]
    dsimp only
    generalize max (floorLogTwo q.num.natAbs q.den - 52) minExponent = e at hplace ⊢
    have hscaled : |scaleTwo (roundTwo q e) e| = |(roundTwo q e : ℚ)| * 2 ^ e := by
      rw [scaleTwo_eq, abs_mul, abs_of_pos (by positivity : (0 : ℚ) < 2 ^ e)]
    by_cases hm : roundTwo q e = 0
    · rw [if_pos hm, hm]
      refine iff_of_false ?_ (by simp)
      rintro ⟨s, h⟩
      split at h <;> cases h
    · rw [if_neg hm]
      split
      case isTrue h => exact iff_of_true ⟨_, rfl⟩ (hscaled ▸ (le_num_natAbs_iff.mp h).1)
      case isFalse h =>
        refine iff_of_false nofun fun hle => h (le_num_natAbs_iff.mpr ⟨?_, ?_⟩)
        · rw [hscaled]
          exact hle
        · exact den_scaleTwo (hplace.nonneg hle)

end Range

end Double

end Orthant
