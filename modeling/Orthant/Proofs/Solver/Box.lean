import Mathlib
import Orthant.Proofs.Box.Grammar
import Orthant.Proofs.Number.Range
import Orthant.Proofs.Solver.Certification
import Orthant.Proofs.Solver.Failure

/-! # Boxes that cannot be read

Reading a box gives rectangles whose sides run upward, or it fails. Most failures are reported as
failures of the engine. Two are not: a number with denominator zero, and an empty rectangle with a side
that is too large for the double in its message. The first pair of balls that is no rectangle decides
which failure it is.
-/

namespace Orthant

namespace Ball

/-! ## Balls -/

/-- The text is a ball of the grammar without a run of digits that is too long for an integer. -/
def Denotes (s : String) (q ρ : ℚ) : Prop := ∃ k, Writes s q ρ k ∧ k ≤ digitLimit

/-- A ratio with denominator zero and without a run of digits that is too long. -/
def IsZeroRatio (cs : List Char) : Prop := ∃ k, ZeroRatio cs k ∧ k ≤ digitLimit

/-- A zero denominator in the number, in the midpoint, or in the radius after a midpoint that is read. -/
inductive HoldsZeroRatio : List Char → Prop
  | exact {cs : List Char} : IsZeroRatio cs → HoldsZeroRatio cs
  | midpoint {cs mid rad : List Char} : IsLongestCut cs mid rad → IsZeroRatio mid →
      HoldsZeroRatio cs
  | radius {cs mid rad : List Char} {q : ℚ} {k : ℕ} : IsLongestCut cs mid rad →
      Midpoint mid q k → k ≤ digitLimit → IsZeroRatio rad → HoldsZeroRatio cs

/-- A text with a zero denominator, perhaps with blanks around it. -/
def DividesByZero (s : String) : Prop :=
  ∃ a cs b, s.toList = a ++ (cs ++ b) ∧ Blanks a ∧ HoldsZeroRatio cs ∧ Blanks b

section Balls

variable {cs text part mid rad : List Char} {s : String} {q ρ : ℚ} {e : Error}

theorem IsZeroRatio.parts_eq_none (h : IsZeroRatio cs) : parts cs = none := by
  obtain ⟨k, h, -⟩ := h
  apply Ball.parts_eq_none
  rintro ⟨tail, rfl⟩
  rcases h.isLiteralChar '[' List.mem_cons_self with h | h <;> exact absurd h (by decide)

theorem number_eq_error (h : number text part = .error e) :
    (e = .fault .zeroDivision ∧ IsZeroRatio part) ∨ e = .ballNotFinite (String.ofList text) := by
  unfold number at h
  cases hread : readRatioBare part with
  | malformed =>
    rw [hread] at h
    exact .inr (Except.error.inj h).symm
  | zeroDenominator =>
    rw [hread] at h
    exact .inl ⟨(Except.error.inj h).symm, readRatioBare_eq_zeroDenominator_iff.mp hread⟩
  | value q =>
    rw [hread] at h
    cases h

theorem number_of_isZeroRatio (h : IsZeroRatio part) (text : List Char) :
    number text part = .error (.fault .zeroDivision) := by
  unfold number
  rw [readRatioBare_eq_zeroDenominator_iff.mpr h]
  rfl

theorem boundsBare_eq_error (h : boundsBare cs = .error e) :
    (e = .fault .zeroDivision ∧ HoldsZeroRatio cs) ∨ e = .ballNotFinite (String.ofList cs) := by
  cases hparts : parts cs with
  | none =>
    unfold boundsBare at h
    rw [hparts] at h
    rcases bind_eq_error.mp h with h | ⟨q, -, h⟩
    · exact (number_eq_error h).imp_left (And.imp_right .exact)
    · cases h
  | some words =>
    obtain ⟨mid, rad⟩ := words
    have hcut := parts_eq_some_iff.mp hparts
    rw [boundsBare_of_parts hparts] at h
    rcases bind_eq_error.mp h with h | ⟨q, hq, h⟩
    · split at h
      case isTrue => cases h
      case isFalse => exact (number_eq_error h).imp_left (And.imp_right (.midpoint hcut))
    · obtain ⟨k, hmid, hk⟩ := (midpoint_eq_ok_iff readsNumbers_readRatioBare).mp hq
      rcases bind_eq_error.mp h with h | ⟨ρ, -, h⟩
      · exact (number_eq_error h).imp_left
          (And.imp_right (.radius hcut hmid (Nat.cast_le.mp hk)))
      · cases h

theorem HoldsZeroRatio.boundsBare_eq (h : HoldsZeroRatio cs) :
    boundsBare cs = .error (.fault .zeroDivision) := by
  cases h with
  | exact h =>
    unfold boundsBare
    rw [h.parts_eq_none]
    dsimp only
    rw [number_of_isZeroRatio h]
    rfl
  | midpoint hcut h =>
    obtain ⟨k, hzero, -⟩ := id h
    rw [boundsBare_of_parts (parts_eq_some_iff.mpr hcut), if_neg (by simpa using hzero.ne_nil),
      number_of_isZeroRatio h]
    rfl
  | radius hcut hmid hk h =>
    rw [boundsBare_of_parts (parts_eq_some_iff.mpr hcut),
      (midpoint_eq_ok_iff readsNumbers_readRatioBare).mpr ⟨_, hmid, Nat.cast_le.mpr hk⟩]
    change (number _ _).bind _ = _
    rw [number_of_isZeroRatio h]
    rfl

theorem HoldsZeroRatio.stripBlanks_eq {a b : List Char} (h : HoldsZeroRatio cs) (ha : Blanks a)
    (hb : Blanks b) : stripBlanks (a ++ (cs ++ b)) = cs := by
  have hcut : ∀ {mid rad}, IsCut cs mid rad → stripBlanks (a ++ (cs ++ b)) = cs := by
    intro mid rad hcut
    obtain ⟨tail, rfl⟩ := hcut.exists_cons
    exact Ball.stripBlanks_eq ha hb (List.cons_ne_nil _ _) hcut.isBlank_head hcut.isBlank_last
  cases h with
  | exact h =>
    obtain ⟨k, h, -⟩ := h
    exact Ball.stripBlanks_eq ha hb h.ne_nil
      (fun c hc => (h.isLiteralChar c (List.mem_of_head? hc)).isBlank)
      fun c hc => (h.isLiteralChar c (List.mem_of_getLast? hc)).isBlank
  | midpoint h => exact hcut h.1
  | radius h => exact hcut h.1

theorem bounds_of_denotes (h : Denotes s q ρ) : bounds s = .ok (q - ρ, q + ρ) := by
  obtain ⟨k, h, hk⟩ := h
  exact (bounds_eq_ok_iff readsNumbers_readRatioBare).mpr
    ⟨q, ρ, k, h, Nat.cast_le.mpr hk, rfl, rfl⟩

theorem exists_denotes {ends : ℚ × ℚ} (h : bounds s = .ok ends) :
    ∃ q ρ, Denotes s q ρ ∧ ends = (q - ρ, q + ρ) := by
  obtain ⟨q, ρ, k, hs, hk, hlo, hhi⟩ := (bounds_eq_ok_iff readsNumbers_readRatioBare).mp h
  exact ⟨q, ρ, ⟨k, hs, Nat.cast_le.mp hk⟩, Prod.ext hlo hhi⟩

theorem bounds_eq_zeroDivision_iff :
    bounds s = .error (.fault .zeroDivision) ↔ DividesByZero s := by
  constructor
  · intro h
    obtain ⟨a, b, hs, ha, hb⟩ := exists_blanks_stripBlanks s.toList
    rcases boundsBare_eq_error h with ⟨-, h⟩ | h
    · exact ⟨a, _, b, hs, ha, h, hb⟩
    · cases h
  · rintro ⟨a, cs, b, hs, ha, h, hb⟩
    unfold bounds
    rw [hs, h.stripBlanks_eq ha hb, h.boundsBare_eq]

theorem bounds_eq_error (h : bounds s = .error e) :
    e = .fault .zeroDivision ∨ ∃ text, e = .ballNotFinite text :=
  (boundsBare_eq_error h).imp And.left fun h => ⟨_, h⟩

end Balls

end Ball

open Ball

/-! ## Rectangles -/

/-- The number is so large that the nearest double is an infinity. -/
def Double.Exceeds (q : ℚ) : Prop := (2 : ℚ) ^ 1024 - 2 ^ 970 ≤ |q|

namespace Rectangle

section Sides

variable {r r' : Rectangle} {re im : String} {e : Error} {f : Fault}

def IsOrdered (r : Rectangle) : Prop := r.reLo ≤ r.reHi ∧ r.imLo ≤ r.imHi

def HasLargeSide (r : Rectangle) : Prop := ∃ x ∈ [r.reLo, r.reHi, r.imLo, r.imHi], Double.Exceeds x

theorem toDouble_eq_error_iff {q : ℚ} :
    toDouble q = .error e ↔ Double.Exceeds q ∧ e = .fault .overflow := by
  unfold toDouble Double.Exceeds
  rw [← Double.ofRat_eq_infinite_iff]
  cases Double.ofRat q with
  | infinite s => simp [fail, eq_comm]
  | nan => simp
  | negZero => simp
  | finite x => simp

theorem bind_toDouble_eq_error_iff {α : Type} {next : Double → Except Error α} {q : ℚ} {P : Prop}
    (hnext : ∀ x, next x = .error e ↔ P ∧ e = .fault .overflow) :
    (toDouble q).bind next = .error e ↔ (Double.Exceeds q ∨ P) ∧ e = .fault .overflow := by
  rw [bind_eq_error, toDouble_eq_error_iff, or_and_right]
  cases h : toDouble q with
  | ok x => simp [hnext]
  | error e' => simp [(toDouble_eq_error_iff.mp h).1]

theorem text_eq_error_iff : r.text = .error e ↔ r.HasLargeSide ∧ e = .fault .overflow := by
  have h := bind_toDouble_eq_error_iff (q := r.reLo) fun a =>
    bind_toDouble_eq_error_iff (q := r.reHi) fun b =>
      bind_toDouble_eq_error_iff (q := r.imLo) fun c =>
        bind_toDouble_eq_error_iff (q := r.imHi) (P := False) (e := e) fun d =>
          iff_of_false (a := Except.ok ("[" ++ a.text ++ ", " ++ b.text ++ "] + [" ++ c.text ++
            ", " ++ d.text ++ "]i") = .error e) nofun (fun h => h.1)
  refine h.trans (and_congr_left fun _ => ?_)
  simp [HasLargeSide]

theorem checked_eq_ok_iff : r.checked = .ok r' ↔ r.IsOrdered ∧ r' = r := by
  unfold checked IsOrdered
  rw [← not_lt, ← not_lt, ← not_or]
  split
  case isTrue h =>
    refine iff_of_false (fun h' => ?_) fun h' => h'.1 h
    obtain ⟨t, -, ht⟩ := bind_eq_ok.mp h'
    cases ht
  case isFalse h => simp [h, eq_comm]

theorem checked_eq_error_iff : r.checked = .error e ↔ ¬ r.IsOrdered ∧
    ((r.HasLargeSide ∧ e = .fault .overflow) ∨ ∃ t, r.text = .ok t ∧ e = .emptyRectangle t) := by
  unfold checked IsOrdered
  rw [← not_lt, ← not_lt, ← not_or, not_not]
  split
  case isTrue h =>
    refine bind_eq_error.trans ?_
    simp only [text_eq_error_iff, Except.error.injEq, eq_comm (a := e), h, true_and]
  case isFalse h => simp [h]

end Sides

end Rectangle

namespace Client

/-- Two balls of the grammar with radii that are not negative. -/
def IsRectangle (re im : String) : Prop :=
  ∃ q ρ q' ρ', Denotes re q ρ ∧ Denotes im q' ρ' ∧ 0 ≤ ρ ∧ 0 ≤ ρ'

/-- A zero denominator in the first ball, or in the second one after a ball of the grammar. -/
def MeetsZero (re im : String) : Prop := DividesByZero re ∨ (∃ q ρ, Denotes re q ρ) ∧ DividesByZero im

/-- Two balls of the grammar, a radius negative, with a side of their rectangle that is too large for a
double. -/
def Overflows (re im : String) : Prop :=
  ∃ q ρ q' ρ', Denotes re q ρ ∧ Denotes im q' ρ' ∧ (ρ < 0 ∨ ρ' < 0) ∧
    ∃ x ∈ [q - ρ, q + ρ, q' - ρ', q' + ρ'], Double.Exceeds x

section Rectangles

variable {re im : String} {r : Rectangle} {e : Error} {f : Fault} {q ρ q' ρ' : ℚ}

theorem isOrdered_iff : (⟨q - ρ, q + ρ, q' - ρ', q' + ρ'⟩ : Rectangle).IsOrdered ↔
    0 ≤ ρ ∧ 0 ≤ ρ' := by
  unfold Rectangle.IsOrdered
  refine and_congr ?_ ?_ <;>
  · constructor <;> intro h <;> linarith

theorem ofBalls_eq_ok_iff : Rectangle.ofBalls re im = .ok r ↔
    ∃ q ρ q' ρ', Denotes re q ρ ∧ Denotes im q' ρ' ∧ 0 ≤ ρ ∧ 0 ≤ ρ' ∧
      r = ⟨q - ρ, q + ρ, q' - ρ', q' + ρ'⟩ := by
  constructor
  · intro h
    obtain ⟨ends, hre, h⟩ := bind_eq_ok.mp h
    obtain ⟨ends', him, h⟩ := bind_eq_ok.mp h
    obtain ⟨q, ρ, hs, rfl⟩ := exists_denotes hre
    obtain ⟨q', ρ', hs', rfl⟩ := exists_denotes him
    obtain ⟨hordered, hr⟩ := Rectangle.checked_eq_ok_iff.mp h
    obtain ⟨hρ, hρ'⟩ := isOrdered_iff.mp hordered
    exact ⟨q, ρ, q', ρ', hs, hs', hρ, hρ', hr⟩
  · rintro ⟨q, ρ, q', ρ', hs, hs', hρ, hρ', rfl⟩
    unfold Rectangle.ofBalls
    rw [bounds_of_denotes hs, bounds_of_denotes hs']
    exact Rectangle.checked_eq_ok_iff.mpr ⟨isOrdered_iff.mpr ⟨hρ, hρ'⟩, rfl⟩

theorem ofBalls_eq_error_iff : Rectangle.ofBalls re im = .error e ↔
    bounds re = .error e ∨ (∃ q ρ, Denotes re q ρ) ∧ bounds im = .error e ∨
      ∃ q ρ q' ρ', Denotes re q ρ ∧ Denotes im q' ρ' ∧
        (⟨q - ρ, q + ρ, q' - ρ', q' + ρ'⟩ : Rectangle).checked = .error e := by
  constructor
  · intro h
    rcases bind_eq_error.mp h with h | ⟨ends, hre, h⟩
    · exact .inl h
    obtain ⟨q, ρ, hs, rfl⟩ := exists_denotes hre
    rcases bind_eq_error.mp h with h | ⟨ends', him, h⟩
    · exact .inr (.inl ⟨⟨q, ρ, hs⟩, h⟩)
    obtain ⟨q', ρ', hs', rfl⟩ := exists_denotes him
    exact .inr (.inr ⟨q, ρ, q', ρ', hs, hs', h⟩)
  · unfold Rectangle.ofBalls
    rintro (h | ⟨⟨q, ρ, hs⟩, h⟩ | ⟨q, ρ, q', ρ', hs, hs', h⟩)
    · rw [h]
      rfl
    · rw [bounds_of_denotes hs, h]
      rfl
    · rw [bounds_of_denotes hs, bounds_of_denotes hs']
      exact h

theorem readRectangle_eq_fault_iff :
    readRectangle re im = .error (.fault f) ↔ Rectangle.ofBalls re im = .error (.fault f) := by
  unfold readRectangle
  split
  case h_1 h => simp [h]
  case h_2 h => simp [h]
  case h_3 => rfl

theorem readRectangle_eq_ok_iff : readRectangle re im = .ok r ↔
    ∃ q ρ q' ρ', Denotes re q ρ ∧ Denotes im q' ρ' ∧ 0 ≤ ρ ∧ 0 ≤ ρ' ∧
      r = ⟨q - ρ, q + ρ, q' - ρ', q' + ρ'⟩ := by
  rw [← ofBalls_eq_ok_iff]
  unfold readRectangle
  split
  case h_1 h => simp [h]
  case h_2 h => simp [h]
  case h_3 => rfl

theorem readRectangle_eq_error (h : readRectangle re im = .error e) :
    (∃ text, e = .boxNotFinite text) ∨ e = .fault .zeroDivision ∨ e = .fault .overflow := by
  unfold readRectangle at h
  split at h
  case h_1 => exact .inl ⟨_, (Except.error.inj h).symm⟩
  case h_2 => exact .inl ⟨_, (Except.error.inj h).symm⟩
  case h_3 hball hempty =>
    rcases ofBalls_eq_error_iff.mp h with h' | ⟨-, h'⟩ | ⟨q, ρ, q', ρ', -, -, h'⟩
    · rcases bounds_eq_error h' with rfl | ⟨text, rfl⟩
      · exact .inr (.inl rfl)
      · exact absurd h (hball text)
    · rcases bounds_eq_error h' with rfl | ⟨text, rfl⟩
      · exact .inr (.inl rfl)
      · exact absurd h (hball text)
    · rcases (Rectangle.checked_eq_error_iff.mp h').2 with ⟨-, rfl⟩ | ⟨t, -, rfl⟩
      · exact .inr (.inr rfl)
      · exact absurd h (hempty t)

theorem readRectangle_eq_zeroDivision_iff :
    readRectangle re im = .error (.fault .zeroDivision) ↔ MeetsZero re im := by
  rw [readRectangle_eq_fault_iff, ofBalls_eq_error_iff, bounds_eq_zeroDivision_iff,
    bounds_eq_zeroDivision_iff]
  refine or_congr_right (or_iff_left ?_)
  rintro ⟨q, ρ, q', ρ', -, -, h⟩
  rcases (Rectangle.checked_eq_error_iff.mp h).2 with ⟨-, h⟩ | ⟨t, -, h⟩ <;> cases h

theorem readRectangle_eq_overflow_iff :
    readRectangle re im = .error (.fault .overflow) ↔ Overflows re im := by
  have hball : ∀ s, bounds s ≠ .error (.fault .overflow) := by
    intro s h
    rcases bounds_eq_error h with h | ⟨text, h⟩ <;> cases h
  rw [readRectangle_eq_fault_iff, ofBalls_eq_error_iff]
  simp only [hball, and_false, false_or, Rectangle.checked_eq_error_iff, isOrdered_iff, not_and_or,
    not_le, reduceCtorEq, and_false, exists_false, or_false, and_true]
  rfl

end Rectangles

/-! ## Boxes -/

/-- The first pair of balls that is no rectangle has the property. -/
def FirstUnread (P : String → String → Prop) (b : Balls) : Prop :=
  ∃ done re im rest, b.re.zip b.im = done ++ (re, im) :: rest ∧
    (∀ p ∈ done, IsRectangle p.1 p.2) ∧ P re im

section Boxes

variable {b : Balls} {box : Option Balls} {rs : List Rectangle} {e : Error}

theorem readBox_some_eq_error_iff : readBox (some b) = .error e ↔
    FirstUnread (fun re im => readRectangle re im = .error e) b := by
  have hmap : readBox (some b) = .error e ↔
      (b.re.zip b.im).mapM (fun p => readRectangle p.1 p.2) = .error e := by
    refine bind_eq_error.trans (or_iff_left ?_)
    rintro ⟨rs, -, h⟩
    cases h
  have hrectangle : ∀ p : String × String, (∃ r, readRectangle p.1 p.2 = .ok r) ↔
      IsRectangle p.1 p.2 := by
    intro p
    simp only [readRectangle_eq_ok_iff, IsRectangle]
    constructor
    · rintro ⟨r, q, ρ, q', ρ', hs, hs', hρ, hρ', -⟩
      exact ⟨q, ρ, q', ρ', hs, hs', hρ, hρ'⟩
    · rintro ⟨q, ρ, q', ρ', hs, hs', hρ, hρ'⟩
      exact ⟨_, q, ρ, q', ρ', hs, hs', hρ, hρ', rfl⟩
  rw [hmap, mapM_eq_error_iff]
  simp only [hrectangle, FirstUnread, Prod.exists]

theorem isOrdered_of_readBox (h : readBox box = .ok (some rs)) : ∀ r ∈ rs, r.IsOrdered := by
  cases box with
  | none => cases h
  | some b =>
    obtain ⟨rs', hrs, he⟩ := bind_eq_ok.mp h
    obtain rfl := Option.some.inj (Except.ok.inj he)
    intro r hr
    obtain ⟨p, -, hp⟩ := (mapM_mem hrs).2 r hr
    obtain ⟨q, ρ, q', ρ', -, -, hρ, hρ', rfl⟩ := readRectangle_eq_ok_iff.mp hp
    exact isOrdered_iff.mpr ⟨hρ, hρ'⟩

theorem readBox_eq_error (h : readBox box = .error e) :
    (∃ text, e = .boxNotFinite text) ∨ e = .fault .zeroDivision ∨ e = .fault .overflow := by
  cases box with
  | none => cases h
  | some b =>
    obtain ⟨done, re, im, rest, -, -, h⟩ := readBox_some_eq_error_iff.mp h
    exact readRectangle_eq_error h

end Boxes

/-! ## Entries -/

section Entries

variable {engine : Engine} {entries : List Entry} {s : EquationSystem} {c : Connection}
  {entry : Entry} {err : Error}

theorem readEntry_eq_error (h : readEntry entry = .error err) :
    entry.candidate.toComplexes = .error err ∨ entry.certified = true ∧
      ∃ box, (box = entry.interval ∨ box = entry.refined) ∧ readBox box = .error err := by
  rcases bind_eq_error.mp h with h | ⟨z, -, h⟩
  · exact .inl h
  cases hcert : entry.certified with
  | false =>
    rw [hcert] at h
    cases h
  | true =>
    rw [hcert, if_pos rfl] at h
    change ((readBox entry.interval).bind fun i => (readBox entry.refined).bind fun r =>
      .ok (⟨z.map Value.complex, entry.positive, true, i, r⟩ : Certificate)) = _ at h
    rcases bind_eq_error.mp h with h | ⟨i, -, h⟩
    · exact .inr ⟨rfl, _, .inl rfl, h⟩
    rcases bind_eq_error.mp h with h | ⟨r, -, h⟩
    · exact .inr ⟨rfl, _, .inr rfl, h⟩
    · cases h

/-- Reading a box has four outcomes: rectangles whose sides run upward, a failure of the engine, a division
by zero and an overflow. The last two are met exactly if the first pair of balls that is no rectangle
has a zero denominator, or a negative radius and a side that is too large for a double. What an engine
answers makes the client fail only in a candidate or in this way. -/
theorem outcome_of_readBox (hengine : engine.Answers entries) (hs : s.parameters = [])
    (hflat : ∃ flat, s.flat = .ok flat) (hc : c.client.attached = true) (solutions : List Solution) :
    (∀ b, (∃ rs, readBox (some b) = .ok (some rs) ∧
          ∀ r ∈ rs, r.reLo ≤ r.reHi ∧ r.imLo ≤ r.imHi) ∨
        (∃ text, readBox (some b) = .error (.boxNotFinite text)) ∨
        readBox (some b) = .error (.fault .zeroDivision) ∨
        readBox (some b) = .error (.fault .overflow)) ∧
    (∀ b, readBox (some b) = .error (.fault .zeroDivision) ↔ FirstUnread MeetsZero b) ∧
    (∀ b, readBox (some b) = .error (.fault .overflow) ↔ FirstUnread Overflows b) ∧
    ∀ err, ((certify engine s solutions).runFrom c).1 = .error err →
      ∃ entry ∈ entries, entry.candidate.toComplexes = .error err ∨ entry.certified = true ∧
        ∃ box, (box = entry.interval ∨ box = entry.refined) ∧ readBox box = .error err := by
  refine ⟨fun b => ?_, fun b => ?_, fun b => ?_, fun err h => ?_⟩
  · cases h : readBox (some b) with
    | error e =>
      rcases readBox_eq_error h with ⟨text, rfl⟩ | rfl | rfl
      · exact .inr (.inl ⟨text, rfl⟩)
      · exact .inr (.inr (.inl rfl))
      · exact .inr (.inr (.inr rfl))
    | ok read =>
      obtain ⟨rs, -, hread⟩ := bind_eq_ok.mp h
      obtain rfl := Except.ok.inj hread
      exact .inl ⟨rs, rfl, isOrdered_of_readBox h⟩
  · simp only [readBox_some_eq_error_iff, readRectangle_eq_zeroDivision_iff]
  · simp only [readBox_some_eq_error_iff, readRectangle_eq_overflow_iff]
  · obtain ⟨flat, hflat⟩ := hflat
    rw [certify_eq hengine hs hflat hc solutions] at h
    obtain ⟨done, entry, rest, rfl, -, hentry⟩ := mapM_eq_error_iff.mp h
    exact ⟨entry, List.mem_append_right _ List.mem_cons_self, readEntry_eq_error hentry⟩

theorem outcome_of_readBox_radius :
    readBox (some ⟨["1", "[2 +/- 1/0]"], ["0", "0"]⟩) = .error (.fault .zeroDivision) := by
  have hone : Digits ['1'] 1 1 := digits_singleton rfl
  have htwo : Literal ['2'] 2 1 := by
    exact_mod_cast literal_integer (digits_singleton (c := '2') (d := 2) rfl) one_pos
  have hshort : 1 ≤ digitLimit := by simp [digitLimit]
  have hblanks : Blanks [] := List.forall_mem_nil _
  have hdenotes : Denotes "1" 1 0 :=
    ⟨1, ⟨[], _, [], rfl, hblanks, .exact (by exact_mod_cast literal_integer hone one_pos), hblanks⟩,
      hshort⟩
  have hzero : Denotes "0" 0 0 := ⟨1, writes_zero, hshort⟩
  have hradius : IsZeroRatio ['1', '/', '0'] :=
    ⟨_, .signed .missing hone one_pos (digits_singleton digitValue?_zero) one_pos, by simpa⟩
  have hdivides : DividesByZero "[2 +/- 1/0]" :=
    ⟨[], "[2 +/- 1/0]".toList, [], rfl, hblanks,
      .radius (parts_eq_some_iff.mp rfl) (.literal htwo) hshort hradius, hblanks⟩
  refine ((outcome_of_readBox (answers_answering []) rfl ⟨[], rfl⟩ (s := ⟨["t"], [], []⟩)
    (c := .start true ⟨false, []⟩) rfl []).2.1 _).mpr
      ⟨[("1", "0")], "[2 +/- 1/0]", "0", [], rfl, fun p hp => ?_, .inl hdivides⟩
  obtain rfl := List.mem_singleton.mp hp
  exact ⟨1, 0, 0, 0, hdenotes, hzero, le_rfl, le_rfl⟩

/-- A ratio with denominator zero, and an empty rectangle far beyond the doubles: neither is reported as a
failure of the engine. -/
theorem readBox_escapes :
    readBox (some ⟨["1/0"], ["0"]⟩) = .error (.fault .zeroDivision) ∧
      readBox (some ⟨["[1e400 +/- -1]"], ["0"]⟩) = .error (.fault .overflow) ∧
        ¬ (Error.fault .zeroDivision).IsOfEngine ∧ ¬ (Error.fault .overflow).IsOfEngine :=
  ⟨rfl, by decide +kernel, id, id⟩

end Entries

end Client

end Orthant
