import Mathlib
import Orthant.Text.Numeral

/-! # Number texts

The grammar of exact number texts, with the number that each text stands for. The reader of ratios
returns this number for every text of the grammar whose runs of digits are short enough for integers,
and refuses the others.
-/

namespace Orthant

/-! ## The grammar -/

/-- A run of digits, perhaps with single underscores between them: its value and its length. -/
inductive Digits : List Char → ℕ → ℕ → Prop
  | nil : Digits [] 0 0
  | digit {cs : List Char} {n k d : ℕ} {c : Char} : Digits cs n k → digitValue? c = some d →
      Digits (cs ++ [c]) (10 * n + d) (k + 1)
  | underscore {cs : List Char} {n k d : ℕ} {c : Char} : Digits cs n k → 0 < k →
      digitValue? c = some d → Digits (cs ++ ['_', c]) (10 * n + d) (k + 1)

inductive Sign : List Char → ℤ → Prop
  | missing : Sign [] 1
  | plus : Sign ['+'] 1
  | minus : Sign ['-'] (-1)

/-- An exponent that may be missing: its value and its length. -/
inductive Exponent : List Char → ℤ → ℕ → Prop
  | missing : Exponent [] 0 0
  | present {s cs : List Char} {σ : ℤ} {n k : ℕ} {c : Char} : c = 'e' ∨ c = 'E' → Sign s σ →
      Digits cs n k → 0 < k → Exponent (c :: (s ++ cs)) (σ * n) k

/-- A number text without sign: its value and the length of its longest run of digits. -/
inductive Magnitude : List Char → ℚ → ℕ → Prop
  | integer {w x : List Char} {n k l : ℕ} {e : ℤ} : Digits w n k → 0 < k → Exponent x e l →
      Magnitude (w ++ x) (n * 10 ^ e) (max k l)
  | decimal {w f x : List Char} {n m k p l : ℕ} {e : ℤ} : Digits w n k → Digits f m p → 0 < k + p →
      Exponent x e l → Magnitude (w ++ '.' :: (f ++ x)) ((n + m / 10 ^ p) * 10 ^ e) (max k (max p l))
  | ratio {a b : List Char} {n d k l : ℕ} : Digits a n k → 0 < k → Digits b d l → 0 < l → d ≠ 0 →
      Magnitude (a ++ '/' :: b) (n / d) (max k l)

/-- A number text: its value and the length of its longest run of digits. -/
inductive Literal : List Char → ℚ → ℕ → Prop
  | signed {s cs : List Char} {σ : ℤ} {q : ℚ} {k : ℕ} : Sign s σ → Magnitude cs q k →
      Literal (s ++ cs) (σ * q) k

theorem digits_singleton {c : Char} {d : ℕ} (h : digitValue? c = some d) : Digits [c] d 1 := by
  simpa using Digits.digit .nil h

theorem digitValue?_zero : digitValue? '0' = some 0 := rfl

theorem digits_zeros (k : ℕ) : Digits (List.replicate k '0') 0 k := by
  induction k with
  | zero => exact .nil
  | succ k ih =>
    rw [List.replicate_succ']
    exact .digit ih digitValue?_zero

theorem literal_integer {w : List Char} {n k : ℕ} (hw : Digits w n k) (hk : 0 < k) :
    Literal w n k := by
  simpa using Literal.signed .missing (.integer hw hk .missing)

theorem literal_decimal {w f : List Char} {n m k p : ℕ} (hw : Digits w n k) (hf : Digits f m p)
    (hpos : 0 < k + p) : Literal (w ++ '.' :: f) (n + m / 10 ^ p) (max k p) := by
  simpa using Literal.signed .missing (.decimal hw hf hpos .missing)

/-! ## Characters -/

section Characters

variable {c : Char} {cs : List Char} {q : ℚ} {k n d : ℕ} {e σ : ℤ}

theorem digitValue?_eq_some (h : digitValue? c = some d) :
    ∃ z ∈ digitZeros, z ≤ c.toNat ∧ c.toNat < z + 10 := by
  unfold digitValue? at h
  obtain ⟨z, hz, -⟩ := Option.map_eq_some_iff.mp h
  have hbounds := List.find?_some hz
  rw [Bool.and_eq_true, decide_eq_true_eq, decide_eq_true_eq] at hbounds
  exact ⟨z, List.mem_of_find?_eq_some hz, hbounds⟩

theorem isBlank_of_isDecimalDigit (h : isDecimalDigit c = true) : isBlank c = false := by
  obtain ⟨d, hd⟩ := Option.isSome_iff_exists.mp h
  obtain ⟨z, hz, hle, hlt⟩ := digitValue?_eq_some hd
  have hapart : ∀ z ∈ digitZeros, ∀ r ∈ blankRanges, z + 10 ≤ r.1 ∨ r.2 < z := by decide
  unfold isBlank
  rw [List.any_eq_false]
  intro r hr hin
  rw [Bool.and_eq_true, decide_eq_true_eq, decide_eq_true_eq] at hin
  have := hapart z hz r hr
  omega

def IsLiteralChar (c : Char) : Prop :=
  isDecimalDigit c = true ∨ c ∈ ['_', '.', 'e', 'E', '+', '-', '/']

theorem isBlank_of_bounds (h : 0x20 < c.toNat) (h' : c.toNat < 0x85) : isBlank c = false := by
  have hapart : ∀ r ∈ blankRanges, r.2 ≤ 0x20 ∨ 0x85 ≤ r.1 := by decide
  unfold isBlank
  rw [List.any_eq_false]
  intro r hr hin
  rw [Bool.and_eq_true, decide_eq_true_eq, decide_eq_true_eq] at hin
  have := hapart r hr
  omega

theorem IsLiteralChar.isBlank (h : IsLiteralChar c) : isBlank c = false := by
  have hmarks : ∀ c ∈ ['_', '.', 'e', 'E', '+', '-', '/'], 0x20 < c.toNat ∧ c.toNat < 0x85 := by
    simp
  rcases h with h | h
  · exact isBlank_of_isDecimalDigit h
  · exact isBlank_of_bounds (hmarks c h).1 (hmarks c h).2

theorem isDecimalDigit_of_eq_some (h : digitValue? c = some d) : isDecimalDigit c = true := by
  rw [isDecimalDigit, h]
  rfl

theorem Digits.mem (h : Digits cs n k) : ∀ c ∈ cs, isDecimalDigit c = true ∨ c = '_' := by
  induction h with
  | nil => simp
  | digit _ hd ih => simpa [or_imp, forall_and, isDecimalDigit_of_eq_some hd] using ih
  | underscore _ _ hd ih => simpa [or_imp, forall_and, isDecimalDigit_of_eq_some hd] using ih

theorem Digits.isLiteralChar (h : Digits cs n k) : ∀ c ∈ cs, IsLiteralChar c := by
  intro c hc
  rcases h.mem c hc with hd | rfl
  · exact .inl hd
  · exact .inr (by decide)

theorem Sign.isLiteralChar (h : Sign cs σ) : ∀ c ∈ cs, IsLiteralChar c := by
  cases h <;> simp [IsLiteralChar]

theorem Exponent.isLiteralChar (h : Exponent cs e k) : ∀ c ∈ cs, IsLiteralChar c := by
  cases h with
  | missing => simp
  | present hc hs hcs =>
    rw [List.forall_mem_cons, List.forall_mem_append]
    refine ⟨?_, hs.isLiteralChar, hcs.isLiteralChar⟩
    rcases hc with rfl | rfl <;> simp [IsLiteralChar]

theorem Magnitude.isLiteralChar (h : Magnitude cs q k) : ∀ c ∈ cs, IsLiteralChar c := by
  cases h with
  | integer hw _ hx => exact List.forall_mem_append.mpr ⟨hw.isLiteralChar, hx.isLiteralChar⟩
  | decimal hw hf _ hx =>
    rw [List.forall_mem_append, List.forall_mem_cons, List.forall_mem_append]
    exact ⟨hw.isLiteralChar, .inr (by decide), hf.isLiteralChar, hx.isLiteralChar⟩
  | ratio ha _ hb _ _ =>
    rw [List.forall_mem_append, List.forall_mem_cons]
    exact ⟨ha.isLiteralChar, .inr (by decide), hb.isLiteralChar⟩

theorem Literal.isLiteralChar (h : Literal cs q k) : ∀ c ∈ cs, IsLiteralChar c := by
  cases h with
  | signed hs hm => exact List.forall_mem_append.mpr ⟨hs.isLiteralChar, hm.isLiteralChar⟩

/-- The first character is a digit or a point. -/
def StartsNumber (cs : List Char) : Prop := ∃ c ∈ cs.head?, isDecimalDigit c = true ∨ c = '.'

theorem StartsNumber.append (h : StartsNumber cs) (rest : List Char) : StartsNumber (cs ++ rest) := by
  obtain ⟨c, hc, hd⟩ := h
  exact ⟨c, by simp [List.head?_append, Option.mem_def.mp hc], hd⟩

theorem StartsNumber.ne (h : StartsNumber cs) :
    ∀ c ∈ cs.head?, c ≠ '+' ∧ c ≠ '-' ∧ c ≠ '/' := by
  obtain ⟨c, hc, hd⟩ := h
  intro c' hc'
  obtain rfl := Option.mem_unique hc hc'
  refine ⟨?_, ?_, ?_⟩ <;>
  · rintro rfl
    revert hd
    decide

theorem Digits.startsNumber (h : Digits cs n k) (hk : 0 < k) : StartsNumber cs := by
  induction h with
  | nil => exact absurd hk (lt_irrefl 0)
  | @digit cs n k d c h hd ih =>
    rcases Nat.eq_zero_or_pos k with rfl | hpos
    · cases h
      exact ⟨c, rfl, .inl (isDecimalDigit_of_eq_some hd)⟩
    · exact (ih hpos).append _
  | underscore _ hpos _ ih => exact (ih hpos).append _

theorem Magnitude.startsNumber (h : Magnitude cs q k) : StartsNumber cs := by
  cases h with
  | integer hw hk _ => exact (hw.startsNumber hk).append _
  | @decimal w f x n m k p l e hw _ _ _ =>
    rcases Nat.eq_zero_or_pos k with rfl | hk
    · cases hw
      exact ⟨'.', rfl, .inr rfl⟩
    · exact (hw.startsNumber hk).append _
  | ratio ha hk _ _ _ => exact (ha.startsNumber hk).append _

theorem Literal.ne_nil (h : Literal cs q k) : cs ≠ [] := by
  cases h with
  | signed _ hm =>
    obtain ⟨c, hc, -⟩ := hm.startsNumber
    intro hnil
    rw [(List.append_eq_nil_iff.mp hnil).2] at hc
    cases hc

end Characters

/-! ## No slash after a plus sign -/

section Apart

/-- No plus sign with a slash after it. -/
def Apart (cs : List Char) : Prop := cs.IsChain fun a b => a = '+' → b ≠ '/'

variable {cs s x : List Char} {n k : ℕ} {q : ℚ} {e σ : ℤ}

theorem Apart.append {a b : List Char} (ha : '+' ∉ a) (hb : Apart b) : Apart (a ++ b) := by
  unfold Apart
  rw [List.isChain_append]
  refine ⟨?_, hb, ?_⟩
  · apply List.Pairwise.isChain
    apply List.Pairwise.imp_of_mem _ (List.pairwise_of_forall fun _ _ => trivial)
    rintro c d hc - - rfl
    exact absurd hc ha
  · rintro c hc d - rfl
    exact absurd (List.mem_of_getLast? hc) ha

theorem Apart.of_notMem (h : '+' ∉ cs) : Apart cs := by
  simpa using Apart.append h List.isChain_nil

theorem Digits.notMem_plus (h : Digits cs n k) : '+' ∉ cs := by
  intro hmem
  rcases h.mem _ hmem with h | h
  · exact absurd h (by decide)
  · exact absurd h (by decide)

theorem Sign.apart (hs : Sign s σ) (h : Apart cs) (hcs : StartsNumber cs) : Apart (s ++ cs) := by
  cases hs with
  | missing => exact h
  | minus => exact Apart.append (by decide) h
  | plus => exact List.isChain_cons.mpr ⟨fun c hc _ => (hcs.ne c hc).2.2, h⟩

theorem Exponent.apart (h : Exponent x e k) : Apart x := by
  cases h with
  | missing => exact List.isChain_nil
  | @present s cs σ n k c hc hs hcs hk =>
    have happ := hs.apart (.of_notMem hcs.notMem_plus) (hcs.startsNumber hk)
    apply Apart.append (a := [c]) _ happ
    rcases hc with rfl | rfl <;> decide

theorem Magnitude.apart (h : Magnitude cs q k) : Apart cs := by
  cases h with
  | integer hw _ hx => exact .append hw.notMem_plus hx.apart
  | decimal hw hf _ hx =>
    apply Apart.append hw.notMem_plus
    apply Apart.append (a := ['.']) (by decide)
    exact .append hf.notMem_plus hx.apart
  | ratio ha _ hb _ _ =>
    apply Apart.append ha.notMem_plus
    exact .append (a := ['/']) (by decide) (.of_notMem hb.notMem_plus)

theorem Literal.apart (h : Literal cs q k) : Apart cs := by
  cases h with
  | signed hs hm => exact hs.apart hm.apart hm.startsNumber

end Apart

/-! ## Reading -/

section Reading

variable {cs s x rest : List Char} {n m k l p d : ℕ} {q : ℚ} {e σ : ℤ} {c : Char}

def EndsRun (rest : List Char) : Prop := ∀ c ∈ rest.head?, isDecimalDigit c = false ∧ c ≠ '_'

theorem endsRun_nil : EndsRun [] := by
  intro c hc
  cases hc

theorem endsRun_cons (h : isDecimalDigit c = false) (h' : c ≠ '_') : EndsRun (c :: rest) := by
  intro c' hc'
  obtain rfl := Option.some.inj hc'
  exact ⟨h, h'⟩

theorem endsRun_dot : EndsRun ('.' :: rest) := endsRun_cons (by decide) (by decide)

theorem endsRun_slash : EndsRun ('/' :: rest) := endsRun_cons (by decide) (by decide)

theorem digitRun_cons (h : digitValue? c = some d) :
    digitRun n k (c :: rest) = digitRun (10 * n + d) (k + 1) rest := by
  conv_lhs => unfold digitRun
  split
  case h_1 he => cases he
  case h_2 he =>
    obtain ⟨rfl, -⟩ := List.cons.inj he
    cases h
  case h_3 c' rest' _ he =>
    obtain ⟨rfl, rfl⟩ := List.cons.inj he
    rw [h]

theorem digitRun_of_endsRun (h : EndsRun rest) : digitRun n k rest = (n, k, rest) := by
  unfold digitRun
  split
  case h_1 => rfl
  case h_2 => exact absurd rfl (h '_' rfl).2
  case h_3 c rest _ =>
    have hc := (h c rfl).1
    unfold isDecimalDigit at hc
    rw [Option.isSome_eq_false_iff, Option.isNone_iff_eq_none] at hc
    rw [hc]

theorem Digits.digitRun_append (h : Digits cs n k) (rest : List Char) :
    digitRun 0 0 (cs ++ rest) = digitRun n k rest := by
  induction h generalizing rest with
  | nil => rfl
  | digit _ hd ih => rw [List.append_assoc, ih, List.singleton_append, digitRun_cons hd]
  | underscore _ hk hd ih =>
    rw [List.append_assoc, ih, List.cons_append, List.singleton_append, digitRun,
      if_neg hk.ne', hd]

theorem Digits.digitRun_eq (h : Digits cs n k) (hrest : EndsRun rest) :
    digitRun 0 0 (cs ++ rest) = (n, k, rest) := by
  rw [h.digitRun_append, digitRun_of_endsRun hrest]

theorem Digits.integerRun_eq (h : Digits cs n k) (hk : 0 < k) (hrest : EndsRun rest) :
    integerRun (cs ++ rest) = if k ≤ digitLimit then some (n, rest) else none := by
  unfold integerRun
  rw [h.digitRun_eq hrest]
  obtain ⟨j, rfl⟩ := Nat.exists_eq_succ_of_ne_zero hk.ne'
  rfl

theorem Sign.signOf_append (h : Sign s σ) (hrest : StartsNumber rest) :
    ∃ neg, signOf (s ++ rest) = (neg, rest) ∧ ∀ n, signed neg n = σ * n := by
  cases h with
  | plus => exact ⟨false, rfl, fun n => (one_mul _).symm⟩
  | minus => exact ⟨true, rfl, fun n => (neg_one_mul _).symm⟩
  | missing =>
    refine ⟨false, ?_, fun n => (one_mul _).symm⟩
    rw [List.nil_append]
    unfold signOf
    split
    case h_1 => exact absurd rfl (hrest.ne '-' rfl).2.1
    case h_2 => exact absurd rfl (hrest.ne '+' rfl).1
    case h_3 => rfl

theorem Exponent.head_eq (h : Exponent x e l) : ∀ c ∈ x.head?, c = 'e' ∨ c = 'E' := by
  cases h with
  | missing => simp
  | present hc => simpa using hc

theorem Exponent.endsRun (h : Exponent x e l) : EndsRun x := by
  intro c hc
  rcases h.head_eq c hc with rfl | rfl <;> decide

theorem Exponent.exponentPart_eq (h : Exponent x e l) : exponentPart x = some (e, l) := by
  cases h with
  | missing => rfl
  | @present s cs σ n k c hc hs hcs hk =>
    obtain ⟨neg, hsign, hval⟩ := hs.signOf_append (hcs.startsNumber hk)
    have hrun := hcs.digitRun_eq endsRun_nil
    rw [List.append_nil] at hrun
    obtain ⟨j, rfl⟩ := Nat.exists_eq_succ_of_ne_zero hk.ne'
    unfold exponentPart
    dsimp only
    rw [if_pos hc, hsign]
    simp only [hrun, hval]

theorem decimalParts_integer (hw : Digits cs n k) (hk : 0 < k) (hx : Exponent x e l) :
    decimalParts (cs ++ x) = some ⟨n, k, 0, 0, e, l⟩ := by
  unfold decimalParts
  rw [hw.digitRun_eq hx.endsRun]
  dsimp only
  split
  case h_1 => exact absurd (hx.head_eq '.' rfl) (by decide)
  case h_2 => rw [if_neg hk.ne', hx.exponentPart_eq, Option.map_some]

theorem decimalParts_decimal {f : List Char} (hw : Digits cs n k) (hf : Digits f m p)
    (hpos : 0 < k + p) (hx : Exponent x e l) :
    decimalParts (cs ++ '.' :: (f ++ x)) = some ⟨n, k, m, p, e, l⟩ := by
  unfold decimalParts
  rw [hw.digitRun_eq endsRun_dot]
  simp only [hf.digitRun_eq hx.endsRun, if_neg hpos.ne', hx.exponentPart_eq, Option.map_some]

theorem ratioPart_eq_none (hw : Digits cs n k) (hrest : EndsRun rest) (hslash : rest.head? ≠ some '/') :
    ratioPart (cs ++ rest) = none := by
  unfold ratioPart integerRun
  rw [hw.digitRun_eq hrest]
  cases k with
  | zero => rfl
  | succ k =>
    dsimp only
    split
    case isTrue =>
      cases rest with
      | nil => rfl
      | cons c rest =>
        have hc : c ≠ '/' := fun h => hslash (congrArg some h)
        simp [hc]
    case isFalse => rfl

theorem scaleTen_eq (m e : ℤ) : scaleTen m e = m * 10 ^ e := by
  cases e with
  | ofNat k => simp [scaleTen, tenPow]
  | negSucc k => simp [scaleTen, tenPow, Rat.mkRat_eq_div, zpow_negSucc, div_eq_mul_inv]

theorem DecimalParts.isLimited_iff (d : DecimalParts) :
    d.isLimited = true ↔ max d.wholeDigits (max d.places d.exponentDigits) ≤ digitLimit := by
  simp [isLimited]

theorem readRatioBare_of_decimalParts {text : List Char} {neg : Bool} {d : DecimalParts}
    (hsign : signOf text = (neg, cs)) (hneg : ∀ n, signed neg n = σ * n)
    (hratio : ratioPart cs = none) (hparts : decimalParts cs = some d) :
    readRatioBare text = if max d.wholeDigits (max d.places d.exponentDigits) ≤ digitLimit
      then .value (σ * ((d.whole + d.fraction / 10 ^ d.places) * 10 ^ d.exponent))
      else .malformed := by
  have hten : (10 : ℚ) ≠ 0 := by norm_num
  have hvalue : scaleTen (signed neg d.scaled.1) d.scaled.2 =
      σ * ((d.whole + d.fraction / 10 ^ d.places) * 10 ^ d.exponent) := by
    rw [scaleTen_eq, hneg]
    simp only [DecimalParts.scaled, tenPow, Nat.pow_eq]
    rw [zpow_sub₀ hten, zpow_natCast]
    push_cast
    field_simp
  unfold readRatioBare
  rw [hsign]
  dsimp only
  rw [hratio, hparts]
  dsimp only
  simp only [hvalue, DecimalParts.isLimited_iff]

theorem ratioPart_ratio {b : List Char} (ha : Digits cs n k) (hk : 0 < k) (hb : Digits b d l)
    (hl : 0 < l) : ratioPart (cs ++ '/' :: b) =
      if max k l ≤ digitLimit then some (n, d) else none := by
  have hsecond := hb.integerRun_eq hl endsRun_nil
  rw [List.append_nil] at hsecond
  unfold ratioPart
  rw [ha.integerRun_eq hk endsRun_slash]
  by_cases hkd : k ≤ digitLimit
  · by_cases hld : l ≤ digitLimit
    · simp [hkd, hld, hsecond]
    · simp [hkd, hld, hsecond]
  · simp [hkd]

theorem decimalParts_ratio {b : List Char} (ha : Digits cs n k) :
    decimalParts (cs ++ '/' :: b) = none := by
  unfold decimalParts
  rw [ha.digitRun_eq endsRun_slash]
  dsimp only
  split
  case h_1 he => cases he
  case h_2 => exact ite_self none

theorem Literal.readRatioBare_eq (h : Literal cs q k) :
    readRatioBare cs = if k ≤ digitLimit then .value q else .malformed := by
  cases h with
  | @signed s cs σ q k hs hm =>
    obtain ⟨neg, hsign, hneg⟩ := hs.signOf_append hm.startsNumber
    cases hm with
    | @integer w x n k l e hw hk hx =>
      have hslash : x.head? ≠ some '/' := fun h => absurd (hx.head_eq '/' h) (by decide)
      rw [readRatioBare_of_decimalParts hsign hneg (ratioPart_eq_none hw hx.endsRun hslash)
        (decimalParts_integer hw hk hx)]
      simp
    | @decimal w f x n m k p l e hw hf hpos hx =>
      rw [readRatioBare_of_decimalParts hsign hneg (ratioPart_eq_none hw endsRun_dot (by simp))
        (decimalParts_decimal hw hf hpos hx)]
    | @ratio a b n d k l ha hk hb hl hd =>
      unfold readRatioBare
      rw [hsign]
      dsimp only
      rw [ratioPart_ratio ha hk hb hl]
      by_cases hlim : max k l ≤ digitLimit
      · rw [if_pos hlim, if_pos hlim]
        dsimp only
        rw [if_neg hd, hneg, Rat.mkRat_eq_div]
        push_cast
        rw [mul_div_assoc]
      · rw [if_neg hlim, if_neg hlim]
        dsimp only
        rw [decimalParts_ratio ha]

end Reading

end Orthant
