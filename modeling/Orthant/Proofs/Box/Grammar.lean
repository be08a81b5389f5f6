import Mathlib
import Orthant.Proofs.Box.Ball
import Orthant.Proofs.Except
import Orthant.Proofs.Text.Reading

/-! # The texts that have ends

A bracketed text is cut after the longest midpoint that a radius can follow. Together with a reader of
numbers this decides which texts have ends: exactly the balls of the grammar, whatever else the reader
does with texts that are no numbers.
-/

namespace Orthant.Ball

def IsLongestCut (cs mid rad : List Char) : Prop :=
  IsCut cs mid rad ∧ ∀ mid' rad', IsCut cs mid' rad' → mid'.length ≤ mid.length

/-! ## The cut -/

section Cut

variable {cs word rest mid rad : List Char}

theorem blanks_takeWhile (cs : List Char) : Blanks (cs.takeWhile isBlank) :=
  fun _ hc => List.mem_takeWhile_imp hc

theorem word_takeWhile (cs : List Char) : Word (cs.takeWhile isWordChar) :=
  fun _ hc => List.mem_takeWhile_imp hc

theorem radiusPart_eq_some_iff : radiusPart cs = some rad ↔
    ∃ b c d, cs = b ++ '+' :: '/' :: '-' :: (c ++ (rad ++ (d ++ [']']))) ∧ Blanks b ∧ Blanks c ∧
      Blanks d ∧ Word rad ∧ rad ≠ [] := by
  constructor
  · intro h
    unfold radiusPart at h
    split at h
    case h_2 => cases h
    case h_1 after hsign =>
      dsimp only at h
      split at h
      case isTrue => cases h
      case isFalse hne =>
        split at h
        case isFalse => cases h
        case isTrue hend =>
          obtain rfl := Option.some.inj h
          set tail := after.dropWhile isBlank with htail
          refine ⟨cs.takeWhile isBlank, after.takeWhile isBlank,
            (tail.dropWhile isWordChar).takeWhile isBlank, ?_, blanks_takeWhile _,
            blanks_takeWhile _, blanks_takeWhile _, word_takeWhile _, by simpa using hne⟩
          rw [← hend, List.takeWhile_append_dropWhile, List.takeWhile_append_dropWhile, htail,
            List.takeWhile_append_dropWhile, ← hsign, List.takeWhile_append_dropWhile]
  · rintro ⟨b, c, d, rfl, hb, hc, hd, hrad, hne⟩
    exact radiusPart_eq_some hb hc hrad hne hd

theorem cutAt_eq_some_iff {j : ℕ} : cutAt word rest j = some (mid, rad) ↔
    ∃ i ≤ j, mid = word.take i ∧ radiusPart (word.drop i ++ rest) = some rad ∧
      ∀ m, i < m → m ≤ j → radiusPart (word.drop m ++ rest) = none := by
  constructor
  · intro h
    induction j with
    | zero =>
      obtain ⟨rad', hrad, he⟩ := Option.map_eq_some_iff.mp h
      obtain ⟨rfl, rfl⟩ := Prod.mk.inj he
      exact ⟨0, le_rfl, rfl, hrad, fun m hm hle => absurd hm (Nat.not_lt.mpr hle)⟩
    | succ j ih =>
      rw [cutAt] at h
      split at h
      case h_1 rad' hrad =>
        obtain ⟨rfl, rfl⟩ := Prod.mk.inj (Option.some.inj h)
        exact ⟨j + 1, le_rfl, rfl, hrad, fun m hm hle => absurd hm (Nat.not_lt.mpr hle)⟩
      case h_2 hnone =>
        obtain ⟨i, hij, hmid, hrad, hlast⟩ := ih h
        refine ⟨i, Nat.le_succ_of_le hij, hmid, hrad, fun m hm hle => ?_⟩
        rcases Nat.lt_or_eq_of_le hle with hlt | rfl
        · exact hlast m hm (Nat.le_of_lt_succ hlt)
        · exact hnone
  · rintro ⟨i, hij, rfl, hrad, hlast⟩
    exact cutAt_eq_some hij hrad hlast

/-- The cuts of a bracketed text are the places in its first word where a radius follows. -/
theorem isCut_cons_iff : IsCut ('[' :: cs) mid rad ↔
    ∃ i ≤ ((cs.dropWhile isBlank).takeWhile isWordChar).length,
      mid = ((cs.dropWhile isBlank).takeWhile isWordChar).take i ∧
      radiusPart (((cs.dropWhile isBlank).takeWhile isWordChar).drop i ++
        (cs.dropWhile isBlank).dropWhile isWordChar) = some rad := by
  constructor
  · rintro ⟨⟨a, b, c, d, hcs, ha, hb, hc, hd⟩, hmid, hrad, hne⟩
    obtain rfl := (List.cons.inj hcs).2
    rcases mid.eq_nil_or_concat with rfl | ⟨_, _, hconcat⟩
    · refine ⟨0, Nat.zero_le _, rfl, ?_⟩
      rw [List.drop_zero, List.takeWhile_append_dropWhile, List.nil_append, ← List.append_assoc,
        (ha.append hb).dropWhile (by simp; decide)]
      exact radiusPart_eq_some (List.forall_mem_nil _) hc hrad hne hd
    · have hmid_ne : mid ≠ [] := by simp [hconcat]
      rw [ha.dropWhile, List.takeWhile_append_of_pos hmid, List.dropWhile_append_of_pos hmid]
      · refine ⟨mid.length, by simp, (List.take_left).symm, ?_⟩
        rw [List.drop_left, List.takeWhile_append_dropWhile]
        exact radiusPart_eq_some hb hc hrad hne hd
      · rw [List.head?_append_of_ne_nil _ hmid_ne]
        exact fun x hx => hmid.isBlank (List.mem_of_head? hx)
  · rintro ⟨i, hi, rfl, h⟩
    obtain ⟨b, c, d, hafter, hb, hc, hd, hrad, hne⟩ := radiusPart_eq_some_iff.mp h
    refine ⟨⟨cs.takeWhile isBlank, b, c, d, ?_, blanks_takeWhile _, hb, hc, hd⟩, ?_, hrad, hne⟩
    · rw [← hafter, ← List.append_assoc (List.take i _), List.take_append_drop,
        List.takeWhile_append_dropWhile, List.takeWhile_append_dropWhile]
    · exact fun x hx => word_takeWhile _ x (List.mem_of_mem_take hx)

theorem IsCut.exists_cons (h : IsCut cs mid rad) : ∃ tail, cs = '[' :: tail := by
  obtain ⟨_, _, _, _, rfl, -⟩ := h.exists_blanks
  exact ⟨_, rfl⟩

theorem parts_eq_none (h : ¬ ∃ tail, cs = '[' :: tail) : parts cs = none := by
  unfold parts
  split
  case h_1 tail => exact absurd ⟨tail, rfl⟩ h
  case h_2 => rfl

theorem parts_eq_some_iff : parts cs = some (mid, rad) ↔ IsLongestCut cs mid rad := by
  by_cases hcs : ∃ tail, cs = '[' :: tail
  · obtain ⟨tail, rfl⟩ := hcs
    rw [parts_cons, cutAt_eq_some_iff, IsLongestCut, isCut_cons_iff]
    constructor
    · rintro ⟨i, hi, rfl, hrad, hlast⟩
      refine ⟨⟨i, hi, rfl, hrad⟩, fun mid' rad' h => ?_⟩
      obtain ⟨i', hi', rfl, hrad'⟩ := isCut_cons_iff.mp h
      rw [List.length_take_of_le hi, List.length_take_of_le hi']
      by_contra hlt
      rw [hlast i' (not_le.mp hlt) hi'] at hrad'
      cases hrad'
    · rintro ⟨⟨i, hi, rfl, hrad⟩, hlongest⟩
      refine ⟨i, hi, rfl, hrad, fun m hm hle => ?_⟩
      by_contra hsome
      obtain ⟨rad', hrad'⟩ := Option.ne_none_iff_exists'.mp hsome
      have hlen := hlongest _ rad' (isCut_cons_iff.mpr ⟨m, hle, rfl, hrad'⟩)
      rw [List.length_take_of_le hi, List.length_take_of_le hle] at hlen
      exact absurd hm (Nat.not_lt.mpr hlen)
  · rw [parts_eq_none hcs]
    exact ⟨nofun, fun h => absurd h.1.exists_cons hcs⟩

end Cut

/-! ## The ends -/

/-- The reader returns a number for exactly the number texts whose runs of digits are no longer than
the limit, which may be infinite. -/
def ReadsNumbers (read : List Char → Numeral) (limit : ℕ∞) : Prop :=
  ∀ cs q, read cs = .value q ↔ ∃ k : ℕ, Literal cs q k ∧ (k : ℕ∞) ≤ limit

theorem readsNumbers_readRatioBare : ReadsNumbers readRatioBare digitLimit := by
  intro cs q
  simpa only [Nat.cast_le] using readRatioBare_eq_value_iff

theorem exists_readsNumbers (limit : ℕ∞) : ∃ read, ReadsNumbers read limit := by
  classical
  refine ⟨fun cs => if h : ∃ q, ∃ k : ℕ, Literal cs q k ∧ (k : ℕ∞) ≤ limit then .value h.choose
    else .malformed, fun cs q => ?_⟩
  dsimp only
  split
  case isTrue h =>
    obtain ⟨k, hk, hlimit⟩ := h.choose_spec
    rw [Numeral.value.injEq]
    constructor
    · rintro rfl
      exact ⟨k, hk, hlimit⟩
    · rintro ⟨k', hk', -⟩
      exact (hk.unique hk').1
  case isFalse h => exact iff_of_false nofun fun hq => h ⟨q, hq⟩

/-- A ball of the grammar with the words for its midpoint and its radius. -/
def Splits (s : String) (mid rad : List Char) : Prop :=
  ∃ a cs b, s.toList = a ++ (cs ++ b) ∧ Blanks a ∧ IsCut cs mid rad ∧ Blanks b ∧
    (∃ q k, Midpoint mid q k) ∧ ∃ ρ l, Literal rad ρ l

section Ends

variable {read : List Char → Numeral} {limit : ℕ∞} {cs text part mid rad : List Char} {s : String}
  {q ρ lo hi : ℚ} {k : ℕ}

theorem cast_max_le_iff {k l : ℕ} :
    ((max k l : ℕ) : ℕ∞) ≤ limit ↔ (k : ℕ∞) ≤ limit ∧ (l : ℕ∞) ≤ limit := by
  rw [Nat.mono_cast.map_max, max_le_iff]

theorem number_eq_ok_iff : number text part read = .ok q ↔ read part = .value q := by
  unfold number
  cases read part with
  | malformed => simp
  | zeroDenominator => simp [fail]
  | value r => simp

theorem midpoint_eq_ok_iff (hread : ReadsNumbers read limit) :
    (if mid.isEmpty then .ok 0 else number text mid read) = .ok q ↔
      ∃ k : ℕ, Midpoint mid q k ∧ (k : ℕ∞) ≤ limit := by
  cases mid with
  | nil =>
    constructor
    · intro h
      obtain rfl := Except.ok.inj h
      exact ⟨0, .missing, by simp⟩
    · rintro ⟨k, h, -⟩
      cases h with
      | missing => rfl
      | literal h => exact absurd rfl h.ne_nil
  | cons c mid =>
    rw [if_neg (by simp), number_eq_ok_iff, hread]
    constructor
    · rintro ⟨k, h, hk⟩
      exact ⟨k, .literal h, hk⟩
    · rintro ⟨k, h, hk⟩
      cases h with
      | literal h => exact ⟨k, h, hk⟩

theorem boundsBare_eq_ok_iff (hread : ReadsNumbers read limit) :
    boundsBare cs read = .ok (lo, hi) ↔
      ∃ q ρ, ∃ k : ℕ, Bare cs q ρ k ∧ (k : ℕ∞) ≤ limit ∧ lo = q - ρ ∧ hi = q + ρ := by
  constructor
  · intro h
    cases hparts : parts cs with
    | none =>
      unfold boundsBare at h
      rw [hparts] at h
      obtain ⟨q, hq, hends⟩ := bind_eq_ok.mp h
      obtain ⟨rfl, rfl⟩ := Prod.mk.inj (Except.ok.inj hends)
      obtain ⟨k, hliteral, hk⟩ := (hread _ _).mp (number_eq_ok_iff.mp hq)
      exact ⟨q, 0, k, .exact hliteral, hk, (sub_zero q).symm, (add_zero q).symm⟩
    | some words =>
      obtain ⟨mid, rad⟩ := words
      rw [boundsBare_of_parts hparts] at h
      obtain ⟨q, hq, hradius⟩ := bind_eq_ok.mp h
      obtain ⟨ρ, hρ, hends⟩ := bind_eq_ok.mp hradius
      obtain ⟨rfl, rfl⟩ := Prod.mk.inj (Except.ok.inj hends)
      obtain ⟨k, hmid, hk⟩ := (midpoint_eq_ok_iff hread).mp hq
      obtain ⟨l, hrad, hl⟩ := (hread _ _).mp (number_eq_ok_iff.mp hρ)
      obtain ⟨a, b, c, d, rfl, ha, hb, hc, hd⟩ := (parts_eq_some_iff.mp hparts).1.exists_blanks
      exact ⟨q, ρ, max k l, .ball ha hmid hb hc hrad hd,
        cast_max_le_iff.mpr ⟨hk, hl⟩, rfl, rfl⟩
  · rintro ⟨q, ρ, k, h, hk, rfl, rfl⟩
    cases h with
    | exact h =>
      have hq : number cs cs read = .ok _ := number_eq_ok_iff.mpr ((hread _ _).mpr ⟨k, h, hk⟩)
      unfold boundsBare
      rw [parts_literal h, sub_zero, add_zero]
      dsimp only
      rw [hq]
      rfl
    | @ball a mid b c rad d q ρ k l ha hmid hb hc hrad hd =>
      obtain ⟨hmid_short, hrad_short⟩ := cast_max_le_iff.mp hk
      rw [boundsBare_of_parts (parts_ball ha hmid hb hc hrad hd),
        (midpoint_eq_ok_iff hread).mpr ⟨k, hmid, hmid_short⟩,
        number_eq_ok_iff.mpr ((hread _ _).mpr ⟨l, hrad, hrad_short⟩)]
      rfl

theorem exists_blanks_stripBlanks (cs : List Char) :
    ∃ a b, cs = a ++ (stripBlanks cs ++ b) ∧ Blanks a ∧ Blanks b := by
  refine ⟨cs.takeWhile isBlank, ((cs.dropWhile isBlank).reverse.takeWhile isBlank).reverse, ?_,
    blanks_takeWhile cs, fun c hc => blanks_takeWhile _ c (List.mem_reverse.mp hc)⟩
  unfold stripBlanks
  rw [← List.reverse_append, List.takeWhile_append_dropWhile, List.reverse_reverse,
    List.takeWhile_append_dropWhile]

theorem Bare.stripBlanks_eq {a b : List Char} (h : Bare cs q ρ k) (ha : Blanks a) (hb : Blanks b) :
    stripBlanks (a ++ (cs ++ b)) = cs :=
  Ball.stripBlanks_eq ha hb h.ne_nil h.isBlank_head h.isBlank_last

theorem writes_iff : Writes s q ρ k ↔ Bare (stripBlanks s.toList) q ρ k := by
  constructor
  · rintro ⟨a, cs, b, hs, ha, h, hb⟩
    rwa [hs, h.stripBlanks_eq ha hb]
  · intro h
    obtain ⟨a, b, hs, ha, hb⟩ := exists_blanks_stripBlanks s.toList
    exact ⟨a, _, b, hs, ha, h, hb⟩

theorem Splits.parts_eq (h : Splits s mid rad) : parts (stripBlanks s.toList) = some (mid, rad) := by
  obtain ⟨a, cs, b, hs, ha, hcut, hb, ⟨q, k, hmid⟩, ρ, l, hrad⟩ := h
  have hne : cs ≠ [] := by
    obtain ⟨tail, rfl⟩ := hcut.exists_cons
    exact List.cons_ne_nil _ _
  rw [hs, stripBlanks_eq ha hb hne hcut.isBlank_head hcut.isBlank_last]
  exact parts_of_isCut hcut hmid hrad

theorem bounds_eq_ok_iff (hread : ReadsNumbers read limit) :
    bounds s read = .ok (lo, hi) ↔
      ∃ q ρ, ∃ k : ℕ, Writes s q ρ k ∧ (k : ℕ∞) ≤ limit ∧ lo = q - ρ ∧ hi = q + ρ := by
  simp only [writes_iff]
  exact boundsBare_eq_ok_iff hread

def IsBallChar (c : Char) : Prop := isBlank c = true ∨ IsLiteralChar c ∨ c = '[' ∨ c = ']'

theorem Blanks.isBallChar (h : Blanks cs) : ∀ c ∈ cs, IsBallChar c := fun c hc => .inl (h c hc)

theorem isBallChar_of_literal (h : Literal cs q k) : ∀ c ∈ cs, IsBallChar c :=
  fun c hc => .inr (.inl (h.isLiteralChar c hc))

theorem isBallChar_of_midpoint (h : Midpoint cs q k) : ∀ c ∈ cs, IsBallChar c := by
  cases h with
  | missing => exact List.forall_mem_nil _
  | literal h => exact isBallChar_of_literal h

theorem Bare.isBallChar (h : Bare cs q ρ k) : ∀ c ∈ cs, IsBallChar c := by
  cases h with
  | exact h => exact isBallChar_of_literal h
  | ball ha hmid hb hc hrad hd =>
    have hsign : ∀ c ∈ ['+', '/', '-'], IsBallChar c := by simp [IsBallChar, IsLiteralChar]
    simp only [List.forall_mem_cons, List.forall_mem_append] at hsign ⊢
    exact ⟨.inr (.inr (.inl rfl)), ha.isBallChar, isBallChar_of_midpoint hmid, hb.isBallChar, hsign.1,
      hsign.2.1, hsign.2.2.1, hc.isBallChar, isBallChar_of_literal hrad, hd.isBallChar,
      .inr (.inr (.inr rfl)), List.forall_mem_nil _⟩

theorem Writes.isBallChar (h : Writes s q ρ k) : ∀ c ∈ s.toList, IsBallChar c := by
  obtain ⟨a, cs, b, hs, ha, h, hb⟩ := h
  rw [hs]
  simp only [List.forall_mem_append]
  exact ⟨ha.isBallChar, h.isBallChar, hb.isBallChar⟩

theorem not_isBallChar_n : ¬ IsBallChar 'n' := by
  unfold IsBallChar IsLiteralChar
  decide

/-- A text has ends exactly if it is a ball of the grammar, perhaps with blanks around it, and the ends
are midpoint minus and midpoint plus radius. Every other text is refused, in particular every name of
an infinity. There is one way at most to cut a ball of the grammar into midpoint and radius. -/
theorem bounds_eq_ok_iff_writes (hread : ReadsNumbers read limit) (s : String) :
    (∀ lo hi, bounds s read = .ok (lo, hi) ↔
      ∃ q ρ, ∃ k : ℕ, Writes s q ρ k ∧ (k : ℕ∞) ≤ limit ∧ lo = q - ρ ∧ hi = q + ρ) ∧
    ((∃ e, bounds s read = .error e) ↔
      ¬ ∃ q ρ, ∃ k : ℕ, Writes s q ρ k ∧ (k : ℕ∞) ≤ limit) ∧
    ('n' ∈ s.toList → ∃ e, bounds s read = .error e) ∧
    ∀ mid rad mid' rad', Splits s mid rad → Splits s mid' rad' → mid = mid' ∧ rad = rad' := by
  have hrefused : (∃ e, bounds s read = .error e) ↔
      ¬ ∃ q ρ, ∃ k : ℕ, Writes s q ρ k ∧ (k : ℕ∞) ≤ limit := by
    constructor
    · rintro ⟨e, he⟩ ⟨q, ρ, k, h, hk⟩
      have hok := (bounds_eq_ok_iff hread).mpr ⟨q, ρ, k, h, hk, rfl, rfl⟩
      rw [he] at hok
      cases hok
    · intro hnot
      cases hbounds : bounds s read with
      | error e => exact ⟨e, rfl⟩
      | ok ends =>
        obtain ⟨q, ρ, k, h, hk, -⟩ := (bounds_eq_ok_iff hread).mp hbounds
        exact absurd ⟨q, ρ, k, h, hk⟩ hnot
  refine ⟨fun lo hi => bounds_eq_ok_iff hread, hrefused, fun hn => hrefused.mpr ?_, ?_⟩
  · rintro ⟨q, ρ, k, h, -⟩
    exact not_isBallChar_n (h.isBallChar 'n' hn)
  · intro mid rad mid' rad' h h'
    have hsame := h.parts_eq.symm.trans h'.parts_eq
    exact Prod.mk.inj (Option.some.inj hsame)

/-- A ball whose midpoint has a slash and whose radius has a plus sign, for readers with and without a
limit, and a ball with infinite radius. -/
theorem bounds_eq_ok_iff_writes_half : ReadsNumbers readRatioBare digitLimit ∧
    bounds " [1/2+/-+1e-1]" = .ok (2 / 5, 3 / 5) ∧ (∃ e, bounds "[1/2 +/- inf]" = .error e) ∧
    ∃ read, ReadsNumbers read ⊤ ∧ bounds " [1/2+/-+1e-1]" read = .ok (2 / 5, 3 / 5) := by
  have hone : Digits ['1'] 1 1 := digits_singleton rfl
  have hmid : Literal ['1', '/', '2'] _ _ :=
    .signed .missing (.ratio hone one_pos (digits_singleton (c := '2') (d := 2) rfl) one_pos
      two_ne_zero)
  have hrad : Literal ['+', '1', 'e', '-', '1'] _ _ :=
    .signed .plus (.integer hone one_pos (.present (.inl rfl) .minus hone one_pos))
  have hblanks : Blanks [] := List.forall_mem_nil _
  have hwrites : Writes " [1/2+/-+1e-1]" _ _ _ :=
    ⟨[' '], _, [], by rw [List.append_nil]; rfl, by simp [Blanks]; decide,
      .ball hblanks (.literal hmid) hblanks hblanks hrad hblanks, hblanks⟩
  have hends : ∀ {read limit}, ReadsNumbers read limit → 1 ≤ limit →
      bounds " [1/2+/-+1e-1]" read = .ok (2 / 5, 3 / 5) := by
    intro read limit hread hlimit
    refine ((bounds_eq_ok_iff_writes hread _).1 _ _).mpr
      ⟨_, _, _, hwrites, by simpa using hlimit, ?_, ?_⟩ <;> norm_num
  obtain ⟨read, hread⟩ := exists_readsNumbers ⊤
  refine ⟨readsNumbers_readRatioBare, hends readsNumbers_readRatioBare (by simp [digitLimit]), ?_,
    read, hread, hends hread le_top⟩
  exact (bounds_eq_ok_iff_writes readsNumbers_readRatioBare _).2.2.1 (by decide)

end Ends

end Orthant.Ball
