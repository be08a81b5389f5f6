import Mathlib
import Orthant.Box.Ball
import Orthant.Proofs.Text.Literal

/-! # Ball texts

The grammar of balls, with the midpoint and the radius that each text stands for. A ball is cut at the
last place where a radius can follow, and in a text of the grammar there is one such place: beside the
sign between midpoint and radius no plus sign has a slash after it. So the ends of a ball are exactly
midpoint minus and midpoint plus radius, unless a run of digits is too long for an integer.
-/

namespace Orthant.Ball

/-! ## The grammar -/

def Blanks (cs : List Char) : Prop := ∀ c ∈ cs, isBlank c = true

/-- A midpoint or a radius as a text: no blanks and no bracket. -/
def Word (cs : List Char) : Prop := ∀ c ∈ cs, isWordChar c = true

/-- A midpoint, which is zero if it is missing. -/
inductive Midpoint : List Char → ℚ → ℕ → Prop
  | missing : Midpoint [] 0 0
  | literal {cs : List Char} {q : ℚ} {k : ℕ} : Literal cs q k → Midpoint cs q k

/-- A bracketed text with the words that stand for midpoint and radius; the midpoint may be missing. -/
structure IsCut (cs mid rad : List Char) : Prop where
  exists_blanks : ∃ a b c d, cs = '[' :: (a ++ (mid ++ (b ++ '+' :: '/' :: '-' ::
    (c ++ (rad ++ (d ++ [']'])))))) ∧ Blanks a ∧ Blanks b ∧ Blanks c ∧ Blanks d
  mid_word : Word mid
  rad_word : Word rad
  rad_ne_nil : rad ≠ []

/-- A ball without blanks around it: midpoint, radius and the length of the longest run of digits. -/
inductive Bare : List Char → ℚ → ℚ → ℕ → Prop
  | exact {cs : List Char} {q : ℚ} {k : ℕ} : Literal cs q k → Bare cs q 0 k
  | ball {a mid b c rad d : List Char} {q ρ : ℚ} {k l : ℕ} : Blanks a → Midpoint mid q k →
      Blanks b → Blanks c → Literal rad ρ l → Blanks d →
      Bare ('[' :: (a ++ (mid ++ (b ++ '+' :: '/' :: '-' :: (c ++ (rad ++ (d ++ [']']))))))) q ρ
        (max k l)

/-- A ball with blanks allowed around it. -/
def Writes (s : String) (q ρ : ℚ) (k : ℕ) : Prop :=
  ∃ a cs b, s.toList = a ++ (cs ++ b) ∧ Blanks a ∧ Bare cs q ρ k ∧ Blanks b

/-! ## Blanks and words -/

section Words

variable {cs a b : List Char} {q : ℚ} {k : ℕ} {c : Char}

theorem dropWhile_of_head {p : Char → Bool} (h : ∀ c ∈ cs.head?, p c = false) :
    cs.dropWhile p = cs := by
  cases cs with
  | nil => rfl
  | cons c cs => rw [List.dropWhile_cons_of_neg (by simpa using h c rfl)]

theorem takeWhile_of_head {p : Char → Bool} (h : ∀ c ∈ cs.head?, p c = false) :
    cs.takeWhile p = [] := by
  cases cs with
  | nil => rfl
  | cons c cs => rw [List.takeWhile_cons_of_neg (by simpa using h c rfl)]

theorem Blanks.dropWhile (ha : Blanks a) (h : ∀ c ∈ cs.head?, isBlank c = false) :
    (a ++ cs).dropWhile isBlank = cs := by
  rw [List.dropWhile_append_of_pos ha, dropWhile_of_head h]

theorem Blanks.append (ha : Blanks a) (hb : Blanks b) : Blanks (a ++ b) :=
  List.forall_mem_append.mpr ⟨ha, hb⟩

theorem stripBlanks_eq (ha : Blanks a) (hb : Blanks b) (hne : cs ≠ [])
    (hhead : ∀ c ∈ cs.head?, isBlank c = false) (hlast : ∀ c ∈ cs.getLast?, isBlank c = false) :
    stripBlanks (a ++ (cs ++ b)) = cs := by
  have hb' : Blanks b.reverse := fun c hc => hb c (List.mem_reverse.mp hc)
  unfold stripBlanks
  rw [ha.dropWhile, List.reverse_append, hb'.dropWhile, List.reverse_reverse]
  · rwa [List.head?_reverse]
  · rwa [List.head?_append_of_ne_nil _ hne]

theorem word_of_literal (h : Literal cs q k) : Word cs := by
  intro c hc
  have hbracket : c ≠ ']' := by
    rintro rfl
    rcases h.isLiteralChar _ hc with h | h <;> exact absurd h (by decide)
  simp [isWordChar, (h.isLiteralChar c hc).isBlank, hbracket]

theorem isBlank_head_of_literal (h : Literal cs q k) : ∀ c ∈ cs.head?, isBlank c = false :=
  fun c hc => (h.isLiteralChar c (List.mem_of_head? hc)).isBlank

theorem isWordChar_of_isBlank (h : isBlank c = true) : isWordChar c = false := by
  simp [isWordChar, h]

theorem Word.isBlank (h : Word cs) (hc : c ∈ cs) : isBlank c = false := by
  by_contra hblank
  rw [Bool.not_eq_false] at hblank
  exact absurd (h c hc) (by simp [isWordChar_of_isBlank hblank])

theorem isWordChar_head_of_blanks (hb : Blanks b) : ∀ c ∈ (b ++ [']']).head?, isWordChar c = false := by
  intro c hc
  cases b with
  | nil =>
    obtain rfl := Option.some.inj hc
    decide
  | cons c' b =>
    obtain rfl := Option.some.inj hc
    exact isWordChar_of_isBlank (hb c' List.mem_cons_self)

end Words

/-! ## The radius -/

section Radius

variable {cs a b c d rad : List Char} {ρ : ℚ} {l : ℕ}

theorem radiusPart_eq_some (hb : Blanks b) (hc : Blanks c) (hrad : Word rad) (hne : rad ≠ [])
    (hd : Blanks d) :
    radiusPart (b ++ '+' :: '/' :: '-' :: (c ++ (rad ++ (d ++ [']'])))) = some rad := by
  have hhead : ∀ x ∈ (rad ++ (d ++ [']'])).head?, isBlank x = false := by
    rw [List.head?_append_of_ne_nil _ hne]
    exact fun x hx => hrad.isBlank (List.mem_of_head? hx)
  have hsign : (b ++ '+' :: '/' :: '-' :: (c ++ (rad ++ (d ++ [']'])))).dropWhile isBlank =
      '+' :: '/' :: '-' :: (c ++ (rad ++ (d ++ [']']))) :=
    hb.dropWhile (by simp; decide)
  have hend : (d ++ [']']).dropWhile isBlank = [']'] := hd.dropWhile (by simp; decide)
  have htake : (rad ++ (d ++ [']'])).takeWhile isWordChar = rad := by
    rw [List.takeWhile_append_of_pos hrad, takeWhile_of_head (isWordChar_head_of_blanks hd),
      List.append_nil]
  have hdrop : (rad ++ (d ++ [']'])).dropWhile isWordChar = d ++ [']'] := by
    rw [List.dropWhile_append_of_pos hrad, dropWhile_of_head (isWordChar_head_of_blanks hd)]
  have hempty : ¬ rad.isEmpty = true := by simpa using hne
  unfold radiusPart
  rw [hsign]
  simp only [hc.dropWhile hhead, htake, hdrop, hend, if_neg hempty, if_pos]

theorem radiusPart_eq_none (h : Apart cs) : radiusPart cs = none := by
  unfold radiusPart
  split
  case h_1 rest he =>
    have hsuffix : '+' :: '/' :: '-' :: rest <:+ cs := he ▸ List.dropWhile_suffix isBlank
    exact absurd rfl ((List.isChain_cons_cons.mp (h.suffix hsuffix)).1 rfl)
  case h_2 => rfl

theorem apart_tail (hc : Blanks c) (hrad : Literal rad ρ l) (hd : Blanks d) :
    Apart (c ++ (rad ++ (d ++ [']']))) := by
  have hplus : ∀ {cs}, Blanks cs → '+' ∉ cs := by
    intro cs hcs hmem
    exact absurd (hcs _ hmem) (by decide)
  apply Apart.append (hplus hc)
  unfold Apart
  rw [List.isChain_append]
  refine ⟨hrad.apart, Apart.append (hplus hd) (Apart.of_notMem (by decide)), ?_⟩
  rintro x - y hy -
  rintro rfl
  cases d with
  | nil => exact absurd (Option.some.inj hy) (by decide)
  | cons z d =>
    obtain rfl := Option.some.inj hy
    exact absurd (hd _ List.mem_cons_self) (by decide)

end Radius

/-! ## The cut -/

section Cut

variable {cs word rest mid rad : List Char} {q ρ : ℚ} {k l : ℕ}

theorem word_of_midpoint (h : Midpoint cs q k) : Word cs := by
  cases h with
  | missing => exact List.forall_mem_nil _
  | literal h => exact word_of_literal h

theorem IsCut.of_literals {a b c d : List Char} (ha : Blanks a) (hmid : Midpoint mid q k)
    (hb : Blanks b) (hc : Blanks c) (hrad : Literal rad ρ l) (hd : Blanks d) :
    IsCut ('[' :: (a ++ (mid ++ (b ++ '+' :: '/' :: '-' :: (c ++ (rad ++ (d ++ [']'])))))))
      mid rad :=
  ⟨⟨a, b, c, d, rfl, ha, hb, hc, hd⟩, word_of_midpoint hmid, word_of_literal hrad, hrad.ne_nil⟩

theorem IsCut.isBlank_head (h : IsCut cs mid rad) : ∀ c ∈ cs.head?, isBlank c = false := by
  obtain ⟨a, b, c, d, rfl, -⟩ := h.exists_blanks
  intro x hx
  obtain rfl := Option.some.inj hx
  decide

theorem IsCut.isBlank_last (h : IsCut cs mid rad) : ∀ c ∈ cs.getLast?, isBlank c = false := by
  obtain ⟨a, b, c, d, rfl, -⟩ := h.exists_blanks
  have he : '[' :: (a ++ (mid ++ (b ++ '+' :: '/' :: '-' :: (c ++ (rad ++ (d ++ [']'])))))) =
      ('[' :: (a ++ (mid ++ (b ++ '+' :: '/' :: '-' :: (c ++ (rad ++ d)))))) ++ [']'] := by simp
  intro x hx
  rw [he, List.getLast?_concat] at hx
  obtain rfl := Option.some.inj hx
  decide

theorem cutAt_eq_some {i j : ℕ} (hij : i ≤ j) (hi : radiusPart (word.drop i ++ rest) = some rad)
    (hnone : ∀ m, i < m → m ≤ j → radiusPart (word.drop m ++ rest) = none) :
    cutAt word rest j = some (word.take i, rad) := by
  induction j with
  | zero =>
    obtain rfl := Nat.le_zero.mp hij
    rw [List.drop_zero] at hi
    rw [cutAt, hi]
    rfl
  | succ j ih =>
    rw [cutAt]
    rcases Nat.lt_or_eq_of_le hij with hlt | rfl
    · rw [hnone (j + 1) hlt le_rfl]
      exact ih (Nat.le_of_lt_succ hlt) fun m hm hle => hnone m hm (Nat.le_succ_of_le hle)
    · rw [hi]

theorem cutAt_sign {b tail : List Char} (hmid : Word mid) (hb : Blanks b)
    (htail : Apart tail) (hrad : radiusPart (b ++ '+' :: '/' :: '-' :: tail) = some rad)
    (hcs : cs = mid ++ (b ++ '+' :: '/' :: '-' :: tail)) :
    cutAt (cs.takeWhile isWordChar) (cs.dropWhile isWordChar) (cs.takeWhile isWordChar).length =
      some (mid, rad) := by
  set after := b ++ '+' :: '/' :: '-' :: tail with hafter
  have hword : cs.takeWhile isWordChar = mid ++ after.takeWhile isWordChar := by
    rw [hcs, List.takeWhile_append_of_pos hmid]
  have hrest : cs.dropWhile isWordChar = after.dropWhile isWordChar := by
    rw [hcs, List.dropWhile_append_of_pos hmid]
  have hdrop : ∀ m, m ≤ (after.takeWhile isWordChar).length →
      (mid ++ after.takeWhile isWordChar).drop (mid.length + m) ++ after.dropWhile isWordChar =
        after.drop m := by
    intro m hm
    rw [List.drop_append, List.drop_eq_nil_of_le (Nat.le_add_right _ _), List.nil_append,
      Nat.add_sub_cancel_left, ← List.drop_append_of_le_length hm, List.takeWhile_append_dropWhile]
  have htake : some (mid, rad) =
      some ((mid ++ after.takeWhile isWordChar).take mid.length, rad) := by rw [List.take_left]
  rw [hword, hrest, htake]
  apply cutAt_eq_some
  · rw [List.length_append]
    exact Nat.le_add_right _ _
  · have h := hdrop 0 (Nat.zero_le _)
    rw [Nat.add_zero, List.drop_zero] at h
    rw [h, hrad]
  · intro m hm hle
    obtain ⟨m, rfl⟩ := Nat.exists_eq_add_of_le hm.le
    rw [List.length_append, Nat.add_le_add_iff_left] at hle
    rw [hdrop m hle]
    apply radiusPart_eq_none
    cases b with
    | cons c b =>
      rw [hafter, takeWhile_of_head] at hle
      · simp only [List.length_nil] at hle
        omega
      · intro c' hc'
        obtain rfl := Option.some.inj hc'
        exact isWordChar_of_isBlank (hb c List.mem_cons_self)
    | nil =>
      obtain ⟨m, rfl⟩ := Nat.exists_eq_succ_of_ne_zero (n := m) (by omega)
      have hslash : Apart ('/' :: '-' :: tail) := Apart.append (a := ['/', '-']) (by decide) htail
      exact hslash.suffix (List.drop_suffix m _)

theorem parts_cons (cs : List Char) : parts ('[' :: cs) =
    cutAt ((cs.dropWhile isBlank).takeWhile isWordChar) ((cs.dropWhile isBlank).dropWhile isWordChar)
      ((cs.dropWhile isBlank).takeWhile isWordChar).length :=
  rfl

theorem parts_ball {a b c d : List Char} (ha : Blanks a) (hmid : Midpoint mid q k) (hb : Blanks b)
    (hc : Blanks c) (hrad : Literal rad ρ l) (hd : Blanks d) :
    parts ('[' :: (a ++ (mid ++ (b ++ '+' :: '/' :: '-' :: (c ++ (rad ++ (d ++ [']']))))))) =
      some (mid, rad) := by
  have htail := apart_tail hc hrad hd
  rw [parts_cons]
  cases hmid with
  | missing =>
    have hnil : Blanks [] := List.forall_mem_nil _
    have hsome := radiusPart_eq_some hnil hc (word_of_literal hrad) hrad.ne_nil hd
    rw [List.nil_append, ← List.append_assoc, (ha.append hb).dropWhile]
    · exact cutAt_sign (List.forall_mem_nil _) hnil htail hsome rfl
    · intro x hx
      obtain rfl := Option.some.inj hx
      decide
  | literal hmid =>
    rw [ha.dropWhile]
    · exact cutAt_sign (word_of_literal hmid) hb htail
        (radiusPart_eq_some hb hc (word_of_literal hrad) hrad.ne_nil hd) rfl
    · rw [List.head?_append_of_ne_nil _ hmid.ne_nil]
      exact isBlank_head_of_literal hmid

theorem parts_of_isCut (h : IsCut cs mid rad) (hmid : Midpoint mid q k) (hrad : Literal rad ρ l) :
    parts cs = some (mid, rad) := by
  obtain ⟨a, b, c, d, rfl, ha, hb, hc, hd⟩ := h.exists_blanks
  exact parts_ball ha hmid hb hc hrad hd

theorem parts_literal (h : Literal cs q k) : parts cs = none := by
  unfold parts
  split
  case h_1 cs =>
    rcases h.isLiteralChar '[' List.mem_cons_self with h | h <;> exact absurd h (by decide)
  case h_2 => rfl

end Cut

/-! ## The ends -/

section Ends

variable {cs text : List Char} {s : String} {q ρ : ℚ} {k : ℕ}

theorem number_literal (h : Literal cs q k) (text : List Char) :
    number text cs = if k ≤ digitLimit then .ok q
      else .error (.ballNotFinite (String.ofList text)) := by
  unfold number
  rw [h.readRatioBare_eq]
  by_cases hk : k ≤ digitLimit
  · rw [if_pos hk, if_pos hk]
  · rw [if_neg hk, if_neg hk]

theorem number_midpoint (h : Midpoint cs q k) (text : List Char) :
    (if cs.isEmpty then .ok 0 else number text cs) = if k ≤ digitLimit then .ok q
      else .error (.ballNotFinite (String.ofList text)) := by
  cases h with
  | missing => rfl
  | literal h =>
    have hne : ¬ cs.isEmpty = true := by simpa using h.ne_nil
    rw [if_neg hne, number_literal h]

theorem boundsBare_of_parts {mid rad : List Char} (h : parts cs = some (mid, rad))
    (read : List Char → Numeral) :
    boundsBare cs read = (if mid.isEmpty then .ok 0 else number cs mid read).bind fun m =>
      (number cs rad read).bind fun r => .ok (m - r, m + r) := by
  unfold boundsBare
  rw [h]
  dsimp only
  split <;> rfl

theorem boundsBare_eq (h : Bare cs q ρ k) :
    boundsBare cs = if k ≤ digitLimit then .ok (q - ρ, q + ρ)
      else .error (.ballNotFinite (String.ofList cs)) := by
  cases h with
  | exact h =>
    unfold boundsBare
    rw [parts_literal h]
    dsimp only
    rw [number_literal h]
    by_cases hk : k ≤ digitLimit
    · rw [if_pos hk, if_pos hk, sub_zero, add_zero]
      rfl
    · rw [if_neg hk, if_neg hk]
      rfl
  | @ball a mid b c rad d q ρ k l ha hmid hb hc hrad hd =>
    rw [boundsBare_of_parts (parts_ball ha hmid hb hc hrad hd), number_midpoint hmid,
      number_literal hrad]
    by_cases hk : k ≤ digitLimit
    · by_cases hl : l ≤ digitLimit
      · rw [if_pos hk, if_pos hl, if_pos (max_le hk hl)]
        rfl
      · rw [if_pos hk, if_neg hl, if_neg fun h => hl ((le_max_right _ _).trans h)]
        rfl
    · rw [if_neg hk, if_neg fun h => hk ((le_max_left _ _).trans h)]
      rfl

theorem Bare.ne_nil (h : Bare cs q ρ k) : cs ≠ [] := by
  cases h with
  | exact h => exact h.ne_nil
  | ball => simp

theorem Bare.isBlank_head (h : Bare cs q ρ k) : ∀ c ∈ cs.head?, isBlank c = false := by
  cases h with
  | exact h => exact isBlank_head_of_literal h
  | ball ha hmid hb hc hrad hd =>
    exact (IsCut.of_literals ha hmid hb hc hrad hd).isBlank_head

theorem Bare.isBlank_last (h : Bare cs q ρ k) : ∀ c ∈ cs.getLast?, isBlank c = false := by
  cases h with
  | exact h => exact fun c hc => (h.isLiteralChar c (List.mem_of_getLast? hc)).isBlank
  | ball ha hmid hb hc hrad hd =>
    exact (IsCut.of_literals ha hmid hb hc hrad hd).isBlank_last

/-- The ends of a ball are exactly midpoint minus and midpoint plus radius, unless a run of digits is
too long for an integer. -/
theorem bounds_eq (h : Writes s q ρ k) :
    ∃ cs, bounds s = if k ≤ digitLimit then .ok (q - ρ, q + ρ)
      else .error (.ballNotFinite (String.ofList cs)) := by
  obtain ⟨a, cs, b, hs, ha, hcs, hb⟩ := h
  refine ⟨cs, ?_⟩
  unfold bounds
  rw [hs, stripBlanks_eq ha hb hcs.ne_nil hcs.isBlank_head hcs.isBlank_last, boundsBare_eq hcs]

end Ends

end Orthant.Ball
