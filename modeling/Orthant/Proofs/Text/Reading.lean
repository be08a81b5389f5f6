import Mathlib
import Orthant.Proofs.Text.Literal

/-! # What the reader of number texts accepts

Each part of the reader takes a text of the grammar from the front of what it reads. So the reader
returns a number for exactly the number texts whose runs of digits are short enough for integers, and
it meets a zero denominator in exactly the ratios that have one.
-/

namespace Orthant

/-- A ratio with denominator zero, which has no value, and the length of its longest run of digits. -/
inductive ZeroRatio : List Char → ℕ → Prop
  | signed {s a b : List Char} {σ : ℤ} {n k l : ℕ} : Sign s σ → Digits a n k → 0 < k →
      Digits b 0 l → 0 < l → ZeroRatio (s ++ (a ++ '/' :: b)) (max k l)

section Sound

variable {cs rest : List Char} {n k d m : ℕ} {q : ℚ} {e : ℤ}

theorem exists_digits_of_digitRun {acc count : ℕ} {w : List Char} (hw : Digits w acc count)
    (h : digitRun acc count cs = (n, k, rest)) :
    ∃ more, cs = more ++ rest ∧ Digits (w ++ more) n k := by
  fun_induction digitRun acc count cs generalizing w with
  | case1 =>
    obtain ⟨rfl, rfl, rfl⟩ := h
    exact ⟨[], rfl, by rwa [List.append_nil]⟩
  | case2 =>
    obtain ⟨rfl, rfl, rfl⟩ := h
    exact ⟨[], rfl, by rwa [List.append_nil]⟩
  | case3 acc count c cs hcount d hd ih =>
    obtain ⟨more, rfl, hmore⟩ := ih (hw.underscore (Nat.pos_of_ne_zero hcount) hd) h
    exact ⟨'_' :: c :: more, rfl, by simpa using hmore⟩
  | case4 =>
    obtain ⟨rfl, rfl, rfl⟩ := h
    exact ⟨[], rfl, by rwa [List.append_nil]⟩
  | case5 acc count c cs _ d hd ih =>
    obtain ⟨more, rfl, hmore⟩ := ih (hw.digit hd) h
    exact ⟨c :: more, rfl, by simpa using hmore⟩
  | case6 =>
    obtain ⟨rfl, rfl, rfl⟩ := h
    exact ⟨[], rfl, by rwa [List.append_nil]⟩

theorem exists_digits (h : digitRun 0 0 cs = (n, k, rest)) : ∃ w, cs = w ++ rest ∧ Digits w n k :=
  exists_digits_of_digitRun .nil h

theorem exists_sign (cs : List Char) :
    ∃ s σ neg rest, cs = s ++ rest ∧ Sign s σ ∧ signOf cs = (neg, rest) ∧
      ∀ n, signed neg n = σ * n := by
  unfold signOf
  split
  case h_1 rest => exact ⟨['-'], -1, true, rest, rfl, .minus, rfl, fun n => (neg_one_mul _).symm⟩
  case h_2 rest => exact ⟨['+'], 1, false, rest, rfl, .plus, rfl, fun n => (one_mul _).symm⟩
  case h_3 => exact ⟨[], 1, false, cs, rfl, .missing, rfl, fun n => (one_mul _).symm⟩

theorem exponent_of_exponentPart (h : exponentPart cs = some (e, k)) : Exponent cs e k := by
  unfold exponentPart at h
  split at h
  case h_1 =>
    obtain ⟨rfl, rfl⟩ := h
    exact .missing
  case h_2 c rest =>
    split at h
    case isFalse => cases h
    case isTrue hc =>
      obtain ⟨s, σ, neg, rest', hrest, hs, hsign, hsigned⟩ := exists_sign rest
      rw [hsign] at h
      dsimp only at h
      split at h
      case h_2 => cases h
      case h_1 n j hrun =>
        obtain ⟨rfl, rfl⟩ := h
        obtain ⟨w, hw, hdigits⟩ := exists_digits hrun
        rw [List.append_nil] at hw
        rw [hrest, hw, hsigned]
        exact .present hc hs hdigits j.succ_pos

theorem magnitude_of_decimalParts {d : DecimalParts} (h : decimalParts cs = some d) :
    Magnitude cs ((d.whole + d.fraction / 10 ^ d.places) * 10 ^ d.exponent)
      (max d.wholeDigits (max d.places d.exponentDigits)) := by
  unfold decimalParts at h
  generalize hrun : digitRun 0 0 cs = run at h
  obtain ⟨n, k, rest⟩ := run
  obtain ⟨w, rfl, hdigits⟩ := exists_digits hrun
  dsimp only at h
  split at h
  case h_1 rest =>
    generalize hrun' : digitRun 0 0 rest = run at h
    obtain ⟨m, p, rest'⟩ := run
    obtain ⟨f, rfl, hplaces⟩ := exists_digits hrun'
    dsimp only at h
    split at h
    case isTrue => cases h
    case isFalse hpos =>
      obtain ⟨⟨e, l⟩, he, rfl⟩ := Option.map_eq_some_iff.mp h
      exact .decimal hdigits hplaces (Nat.pos_of_ne_zero hpos) (exponent_of_exponentPart he)
  case h_2 =>
    split at h
    case isTrue => cases h
    case isFalse hpos =>
      obtain ⟨⟨e, l⟩, he, rfl⟩ := Option.map_eq_some_iff.mp h
      simpa using Magnitude.integer hdigits (Nat.pos_of_ne_zero hpos) (exponent_of_exponentPart he)

theorem exists_digits_of_integerRun (h : integerRun cs = some (n, rest)) :
    ∃ w k, cs = w ++ rest ∧ Digits w n k ∧ 0 < k ∧ k ≤ digitLimit := by
  unfold integerRun at h
  split at h
  case h_2 => cases h
  case h_1 k _ hrun =>
    split at h
    case isFalse => cases h
    case isTrue hk =>
      obtain ⟨rfl, rfl⟩ := h
      obtain ⟨w, hw, hdigits⟩ := exists_digits hrun
      exact ⟨w, k + 1, hw, hdigits, k.succ_pos, hk⟩

theorem exists_digits_of_ratioPart (h : ratioPart cs = some (n, d)) :
    ∃ a b k l, cs = a ++ '/' :: b ∧ Digits a n k ∧ 0 < k ∧ Digits b d l ∧ 0 < l ∧
      max k l ≤ digitLimit := by
  unfold ratioPart at h
  obtain ⟨⟨n', rest⟩, hn, hdenominator⟩ := Option.bind_eq_some_iff.mp h
  obtain ⟨a, k, rfl, ha, hk, hlimit⟩ := exists_digits_of_integerRun hn
  split at hdenominator
  case h_2 => cases hdenominator
  case h_1 rest he =>
    obtain ⟨rfl, rfl⟩ := he
    obtain ⟨⟨d', rest'⟩, hd, hend⟩ := Option.bind_eq_some_iff.mp hdenominator
    obtain ⟨b, l, rfl, hb, hl, hlimit'⟩ := exists_digits_of_integerRun hd
    split at hend
    case h_2 => cases hend
    case h_1 he' =>
      obtain ⟨rfl, rfl⟩ := he'
      obtain ⟨rfl, rfl⟩ := hend
      rw [List.append_nil]
      exact ⟨a, b, k, l, rfl, ha, hk, hb, hl, max_le hlimit hlimit'⟩

end Sound

section Exact

variable {cs : List Char} {q : ℚ} {k : ℕ}

theorem exists_literal_of_readRatioBare (h : readRatioBare cs = .value q) :
    ∃ k, Literal cs q k ∧ k ≤ digitLimit := by
  obtain ⟨s, σ, neg, rest, hcs, hs, hsign, hsigned⟩ := exists_sign cs
  cases hratio : ratioPart rest with
  | some parts =>
    obtain ⟨n, d⟩ := parts
    obtain ⟨a, b, k, l, hrest, ha, hk, hb, hl, hlimit⟩ := exists_digits_of_ratioPart hratio
    unfold readRatioBare at h
    simp only [hsign, hratio] at h
    split at h
    case isTrue => cases h
    case isFalse hd =>
      obtain rfl := Numeral.value.inj h
      refine ⟨max k l, ?_, hlimit⟩
      rw [hcs, hrest, hsigned, Rat.mkRat_eq_div]
      push_cast
      rw [mul_div_assoc]
      exact .signed hs (.ratio ha hk hb hl hd)
  | none =>
    cases hparts : decimalParts rest with
    | none =>
      unfold readRatioBare at h
      simp only [hsign, hratio, hparts] at h
      cases h
    | some d =>
      rw [readRatioBare_of_decimalParts hsign hsigned hratio hparts] at h
      split at h
      case isFalse => cases h
      case isTrue hlimit =>
        obtain rfl := Numeral.value.inj h
        refine ⟨_, ?_, hlimit⟩
        rw [hcs]
        exact .signed hs (magnitude_of_decimalParts hparts)

/-- The reader returns a number for exactly the number texts without a run of digits that is too long,
and it is the number that the text stands for. -/
theorem readRatioBare_eq_value_iff :
    readRatioBare cs = .value q ↔ ∃ k, Literal cs q k ∧ k ≤ digitLimit := by
  constructor
  · exact exists_literal_of_readRatioBare
  · rintro ⟨k, h, hk⟩
    rw [h.readRatioBare_eq, if_pos hk]

theorem ZeroRatio.isLiteralChar (h : ZeroRatio cs k) : ∀ c ∈ cs, IsLiteralChar c := by
  cases h with
  | signed hs ha _ hb _ =>
    rw [List.forall_mem_append, List.forall_mem_append, List.forall_mem_cons]
    exact ⟨hs.isLiteralChar, ha.isLiteralChar, .inr (by decide), hb.isLiteralChar⟩

theorem ZeroRatio.ne_nil (h : ZeroRatio cs k) : cs ≠ [] := by
  cases h with
  | signed => simp

theorem ZeroRatio.readRatioBare_eq (h : ZeroRatio cs k) (hk : k ≤ digitLimit) :
    readRatioBare cs = .zeroDenominator := by
  cases h with
  | @signed s a b σ n k l hs ha hpos hb hpos' =>
    obtain ⟨neg, hsign, -⟩ := hs.signOf_append ((ha.startsNumber hpos).append ('/' :: b))
    unfold readRatioBare
    rw [hsign]
    dsimp only
    rw [ratioPart_ratio ha hpos hb hpos', if_pos hk]
    rfl

theorem readRatioBare_eq_zeroDenominator_iff :
    readRatioBare cs = .zeroDenominator ↔ ∃ k, ZeroRatio cs k ∧ k ≤ digitLimit := by
  constructor
  · intro h
    obtain ⟨s, σ, neg, rest, hcs, hs, hsign, -⟩ := exists_sign cs
    unfold readRatioBare at h
    rw [hsign] at h
    dsimp only at h
    split at h
    case h_1 n d hratio =>
      obtain ⟨a, b, k, l, hrest, ha, hk, hb, hl, hlimit⟩ := exists_digits_of_ratioPart hratio
      split at h
      case isFalse => cases h
      case isTrue hd =>
        subst hd
        refine ⟨max k l, ?_, hlimit⟩
        rw [hcs, hrest]
        exact .signed hs ha hk hb hl
    case h_2 =>
      split at h
      case h_2 => cases h
      case h_1 => split at h <;> cases h
  · rintro ⟨k, h, hk⟩
    exact h.readRatioBare_eq hk

end Exact

/-! ## One reading -/

section Unique

variable {cs : List Char} {q q' : ℚ} {k k' : ℕ}

/-- A number text without sign is a decimal, with its parts, or a ratio, with its two runs of digits. -/
theorem Magnitude.exists_parts (h : Magnitude cs q k) :
    (∃ d, decimalParts cs = some d ∧ q = (d.whole + d.fraction / 10 ^ d.places) * 10 ^ d.exponent ∧
      k = max d.wholeDigits (max d.places d.exponentDigits)) ∨
    (decimalParts cs = none ∧ ∃ n l b d m, digitRun 0 0 cs = (n, l, '/' :: b) ∧
      digitRun 0 0 b = (d, m, []) ∧ q = n / d ∧ k = max l m) := by
  cases h with
  | integer hw hk hx => exact .inl ⟨_, decimalParts_integer hw hk hx, by simp, by simp⟩
  | decimal hw hf hpos hx => exact .inl ⟨_, decimalParts_decimal hw hf hpos hx, rfl, rfl⟩
  | @ratio a b n d k l ha hk hb hl hd =>
    have hrun := hb.digitRun_eq endsRun_nil
    rw [List.append_nil] at hrun
    exact .inr ⟨decimalParts_ratio ha, n, k, b, d, l, ha.digitRun_eq endsRun_slash, hrun, rfl, rfl⟩

theorem Magnitude.unique (h : Magnitude cs q k) (h' : Magnitude cs q' k') : q = q' ∧ k = k' := by
  rcases h.exists_parts with ⟨d, hd, rfl, rfl⟩ | ⟨hd, n, l, b, d, m, hrun, hrun', rfl, rfl⟩
  · rcases h'.exists_parts with ⟨d', hd', rfl, rfl⟩ | ⟨hd', -⟩
    · obtain rfl := Option.some.inj (hd.symm.trans hd')
      exact ⟨rfl, rfl⟩
    · cases hd.symm.trans hd'
  · rcases h'.exists_parts with ⟨d', hd', -⟩ | ⟨-, n', l', b', d', m', hrun₂, hrun₂', rfl, rfl⟩
    · cases hd.symm.trans hd'
    · cases hrun.symm.trans hrun₂
      cases hrun'.symm.trans hrun₂'
      exact ⟨rfl, rfl⟩

/-- A number text stands for one number, and its longest run of digits has one length. -/
theorem Literal.unique (h : Literal cs q k) (h' : Literal cs q' k') : q = q' ∧ k = k' := by
  obtain @⟨s, rest, σ, q, k, hs, hm⟩ := h
  generalize hcs : s ++ rest = cs at h'
  obtain @⟨s', rest', σ', q', k', hs', hm'⟩ := h'
  obtain ⟨neg, hsign, hsigned⟩ := hs.signOf_append hm.startsNumber
  obtain ⟨neg', hsign', hsigned'⟩ := hs'.signOf_append hm'.startsNumber
  rw [hcs, hsign'] at hsign
  obtain ⟨rfl, rfl⟩ := Prod.mk.inj hsign
  have hσ : σ = σ' := by simpa using (hsigned 1).symm.trans (hsigned' 1)
  obtain ⟨rfl, rfl⟩ := hm.unique hm'
  exact ⟨by rw [hσ], rfl⟩

end Unique

end Orthant
