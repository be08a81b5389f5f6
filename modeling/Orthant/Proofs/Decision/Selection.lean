import Mathlib
import Orthant.Decision.Verdict
import Orthant.Proofs.Except

/-! # What a verdict that holds says about the certificates

The selected certificate has the least numeric `t`. When the verdict holds, its rectangle lies above
1, and so does every other rectangle that does not contain 1. A rectangle that contains 1 is not
looked at unless it is the selected one.
-/

namespace Orthant

/-! ## Doubles with a value -/

namespace Double

variable {x y : Double} {p q : ℚ}

theorem toRat_eq_ok : x.toRat = .ok p ↔ x.value? = some p := by
  cases x <;> simp [toRat, value?, fail]

theorem lt_iff_of_value (hx : x.value? = some p) (hy : y.value? = some q) :
    x.lt y = true ↔ p < q := by
  cases x <;> cases y <;> simp_all [lt, value?]

theorem same_iff_of_value (hx : x.value? = some p) (hy : y.value? = some q) :
    x.same y = true ↔ p = q := by
  cases x <;> cases y <;> simp_all [same, value?]; exact eq_comm

theorem le_iff_of_value (hx : x.value? = some p) (hy : y.value? = some q) :
    x.le y = true ↔ p ≤ q := by
  rw [le, Bool.or_eq_true, lt_iff_of_value hx hy, same_iff_of_value hx hy, le_iff_lt_or_eq]

end Double

/-- The real number lies in the rectangle. -/
def Rectangle.HoldsReal (r : Rectangle) (t : ℝ) : Prop :=
  (r.reLo : ℝ) ≤ t ∧ t ≤ r.reHi ∧ r.imLo ≤ 0 ∧ 0 ≤ r.imHi

theorem Rectangle.one_lt_of_holdsReal {r : Rectangle} {p q : ℚ} (hr : r.contains p q = true)
    (hp : 1 ≤ p) (h1 : r.contains 1 0 = false) {t : ℝ} (ht : r.HoldsReal t) : 1 < t := by
  obtain ⟨hlo, -, him, him'⟩ := ht
  simp only [contains, Bool.and_eq_true, decide_eq_true_eq] at hr
  have hn : ¬ (r.reLo ≤ 1) := fun hle => by
    have : r.contains 1 0 = true := by
      simp only [contains, Bool.and_eq_true, decide_eq_true_eq]
      exact ⟨⟨⟨hle, hp.trans hr.1.1.2⟩, him⟩, him'⟩
    rw [h1] at this
    cases this
  exact lt_of_lt_of_le (by exact_mod_cast not_le.mp hn) hlo

/-! ## Certificates -/

namespace Certificate

variable {c c' : Certificate} {k : Key} {z : Complex} {preferRefined : Bool}

/-- The preferred box has a rectangle for `t`, which contains the numeric `t`. -/
def Centered (c : Certificate) (preferRefined : Bool) : Prop :=
  ∃ r v rest, c.tInterval preferRefined = .ok (some r) ∧ c.candidate = v :: rest ∧
    r.containsValue v = .ok true

theorem Centered.exists_value (h : c.Centered preferRefined) (hz : c.tMidpoint = .ok z) :
    ∃ r p q, c.tInterval preferRefined = .ok (some r) ∧ z.re.value? = some p ∧
      r.contains p q = true := by
  obtain ⟨r, v, rest, hr, hv, hin⟩ := h
  rw [tMidpoint, hv] at hz
  obtain ⟨z', hz', hin⟩ := bind_eq_ok.mp hin
  obtain rfl := Except.ok.inj (hz'.symm.trans hz)
  obtain ⟨p, hp, hin⟩ := bind_eq_ok.mp hin
  obtain ⟨q, -, hin⟩ := bind_eq_ok.mp hin
  exact ⟨r, p, q, hr, Double.toRat_eq_ok.mp hp, Except.ok.inj hin⟩

theorem selectionKey_eq_ok (h : c.selectionKey = .ok k) : ∃ z, c.tMidpoint = .ok z ∧ k.t = z.re := by
  obtain ⟨_, -, h⟩ := bind_eq_ok.mp h
  obtain ⟨z, hz, h⟩ := bind_eq_ok.mp h
  cases h
  exact ⟨z, hz, rfl⟩

theorem Key.le_of_lt {a b : Key} {p q : ℚ} (ha : a.t.value? = some p) (hb : b.t.value? = some q)
    (h : a.lt b = true) : p ≤ q := by
  rw [lt] at h
  split at h
  case isTrue he => exact ((Double.same_iff_of_value ha hb).mp he).le
  case isFalse => exact ((Double.lt_iff_of_value ha hb).mp h).le

theorem Key.le_of_not_lt {a b : Key} {p q : ℚ} (ha : a.t.value? = some p)
    (hb : b.t.value? = some q) (h : ¬ a.lt b = true) : q ≤ p := by
  rw [lt] at h
  split at h
  case isTrue he => exact ((Double.same_iff_of_value ha hb).mp he).ge
  case isFalse => exact not_lt.mp fun hlt => h ((Double.lt_iff_of_value ha hb).mpr hlt)

end Certificate

/-! ## The selection -/

namespace Decision

variable {cs : List Certificate} {method : Method} {preferRefined : Bool} {d : Decision}

theorem least_spec {α : Type} (best : α × Certificate.Key) (l : List (α × Certificate.Key))
    (hv : ∀ c ∈ best :: l, ∃ p, c.2.t.value? = some p) :
    ∃ c ∈ best :: l, c.1 = least best l ∧
      ∀ c' ∈ best :: l, ∀ p q, c.2.t.value? = some p → c'.2.t.value? = some q → p ≤ q := by
  induction l generalizing best with
  | nil =>
    refine ⟨best, List.mem_cons_self, rfl, fun c' hc' p q hp hq => ?_⟩
    obtain rfl := List.mem_singleton.mp hc'
    exact (Option.some.inj (hp.symm.trans hq)).le
  | cons x l ih =>
    obtain ⟨p, hp⟩ := hv best List.mem_cons_self
    obtain ⟨q, hq⟩ := hv x (List.mem_cons_of_mem _ List.mem_cons_self)
    have hl : ∀ c ∈ l, ∃ p, c.2.t.value? = some p := fun c hc =>
      hv c (List.mem_cons_of_mem _ (List.mem_cons_of_mem _ hc))
    rw [least]
    split
    case isTrue hlt =>
      obtain ⟨c, hc, he, hle⟩ := ih x (List.forall_mem_cons.mpr ⟨⟨q, hq⟩, hl⟩)
      refine ⟨c, List.mem_cons_of_mem _ hc, he, fun c' hc' r s hr hs => ?_⟩
      rcases List.mem_cons.mp hc' with rfl | hc'
      · obtain rfl := Option.some.inj (hp.symm.trans hs)
        exact (hle x List.mem_cons_self r q hr hq).trans (Certificate.Key.le_of_lt hq hp hlt)
      · exact hle c' hc' r s hr hs
    case isFalse hlt =>
      obtain ⟨c, hc, he, hle⟩ := ih best (List.forall_mem_cons.mpr ⟨⟨p, hp⟩, hl⟩)
      refine ⟨c, ?_, he, fun c' hc' r s hr hs => ?_⟩
      · rcases List.mem_cons.mp hc with rfl | hc
        · exact List.mem_cons_self
        · exact List.mem_cons_of_mem _ (List.mem_cons_of_mem _ hc)
      · rcases List.mem_cons.mp hc' with rfl | hc'
        · exact hle c' List.mem_cons_self r s hr hs
        rcases List.mem_cons.mp hc' with rfl | hc'
        · obtain rfl := Option.some.inj (hq.symm.trans hs)
          exact (hle best List.mem_cons_self r p hr hp).trans
            (Certificate.Key.le_of_not_lt hq hp hlt)
        · exact hle c' (List.mem_cons_of_mem _ hc') r s hr hs

theorem mem_positives {c : Certificate} {i : ℕ} (h : (c, i) ∈ positives cs) :
    c ∈ cs ∧ c.positive = true ∧ c.certified = true := by
  obtain ⟨hm, hp⟩ := List.mem_filter.mp h
  rw [Bool.and_eq_true] at hp
  exact ⟨(List.mem_zipIdx' hm).2 ▸ List.getElem_mem _, hp⟩

theorem exists_mem_positives {c : Certificate} (hc : c ∈ cs) (hp : c.positive = true)
    (hcert : c.certified = true) : ∃ i, (c, i) ∈ positives cs := by
  obtain ⟨i, hi⟩ := List.mem_iff_getElem?.mp hc
  refine ⟨i, List.mem_filter.mpr ⟨List.mem_zipIdx_iff_getElem?.mpr hi, ?_⟩⟩
  simp [hp, hcert]

theorem keyed_eq_ok {c : Certificate} {ck : Certificate × Certificate.Key}
    (h : keyed c = .ok ck) : ck.1 = c ∧ ∃ z, c.tMidpoint = .ok z ∧ ck.2.t = z.re := by
  obtain ⟨k, hk, h⟩ := bind_eq_ok.mp h
  cases h
  exact ⟨rfl, Certificate.selectionKey_eq_ok hk⟩

theorem verdict_eq_holds {x : Double} {i : Option Rectangle} (h : verdict x i = .holds) :
    Double.one.le x = true ∧ ∀ r, i = some r → r.contains 1 0 = false := by
  rw [verdict] at h
  split at h
  · cases h
  case isFalse hi =>
    refine ⟨?_, fun r hr => by simpa [hr] using hi⟩
    rw [Copositivity.ofBool] at h
    split at h
    case isTrue ht => exact ht
    case isFalse => cases h

theorem ofCertificates_eq_ok (h : ofCertificates cs method preferRefined = .ok d)
    (hd : d.copositive ≠ .fails)
    (hc : ∀ c ∈ cs, c.positive = true → c.certified = true → c.Centered preferRefined) :
    ∃ c ∈ cs, c.positive = true ∧ c.certified = true ∧
      ∃ z, c.tMidpoint = .ok z ∧ c.tInterval preferRefined = .ok d.interval ∧
        d.copositive = verdict z.re d.interval ∧
        ∀ c' ∈ cs, c'.positive = true → c'.certified = true →
          ∃ z', c'.tMidpoint = .ok z' ∧
            ∀ p q, z.re.value? = some p → z'.re.value? = some q → p ≤ q := by
  rw [ofCertificates] at h
  split at h
  case h_1 => cases h; exact absurd rfl hd
  case h_2 c rest hpos =>
    obtain ⟨first, hfirst, h⟩ := bind_eq_ok.mp h
    obtain ⟨others, hothers, h⟩ := bind_eq_ok.mp h
    obtain ⟨z, hz, h⟩ := bind_eq_ok.mp h
    obtain ⟨i, hi, h⟩ := bind_eq_ok.mp h
    cases h
    have hkeys : ((positives cs).mapM fun d => keyed d.1) = .ok (first :: others) := by
      rw [hpos, List.mapM_cons]
      exact bind_eq_ok.mpr ⟨first, hfirst, bind_eq_ok.mpr ⟨others, hothers, rfl⟩⟩
    obtain ⟨hto, hof⟩ := mapM_mem hkeys
    have hkey : ∀ ck ∈ first :: others, ck.1 ∈ cs ∧ ck.1.positive = true ∧
        ck.1.certified = true ∧ ∃ z, ck.1.tMidpoint = .ok z ∧ ck.2.t = z.re := by
      intro ck hck
      obtain ⟨c, hc, hk⟩ := hof ck hck
      obtain ⟨he, hz⟩ := keyed_eq_ok hk
      obtain ⟨hm, hp, hcert⟩ := mem_positives hc
      exact he ▸ ⟨hm, hp, hcert, hz⟩
    obtain ⟨ck, hck, hbest, hleast⟩ := least_spec first others fun ck hck => by
      obtain ⟨hm, hp, hcert, z, hz, ht⟩ := hkey ck hck
      obtain ⟨-, p, -, -, hv, -⟩ := (hc _ hm hp hcert).exists_value hz
      exact ⟨p, ht ▸ hv⟩
    obtain ⟨hm, hp, hcert, z', hz', ht⟩ := hkey ck hck
    rw [hbest] at hm hp hcert hz'
    obtain rfl := Except.ok.inj (hz'.symm.trans hz)
    refine ⟨_, hm, hp, hcert, z', hz, hi, rfl, fun c' hm' hp' hcert' => ?_⟩
    obtain ⟨i', hi'⟩ := exists_mem_positives hm' hp' hcert'
    obtain ⟨ck', hck', hk'⟩ := hto _ hi'
    obtain ⟨-, z'', hz'', ht'⟩ := keyed_eq_ok hk'
    refine ⟨z'', hz'', fun p q hv hv' => hleast ck' hck' p q (ht ▸ hv) (ht' ▸ hv')⟩

/-- When the verdict holds, every certified positive numeric `t` is at least 1, the rectangle of the
selected one has only real numbers above 1, and so has every other rectangle that does not
contain 1. -/
theorem one_lt_of_holds (h : ofCertificates cs method preferRefined = .ok d)
    (hd : d.copositive = .holds)
    (hc : ∀ c ∈ cs, c.positive = true → c.certified = true → c.Centered preferRefined) :
    (∃ c ∈ cs, c.positive = true ∧ c.certified = true ∧
      ∃ r, c.tInterval preferRefined = .ok (some r) ∧ d.interval = some r ∧
        ∀ t, r.HoldsReal t → 1 < t) ∧
      ∀ c ∈ cs, c.positive = true → c.certified = true →
        (∃ z, c.tMidpoint = .ok z ∧ Double.one.le z.re = true) ∧
          ∀ r, c.tInterval preferRefined = .ok (some r) → r.contains 1 0 = false →
            ∀ t, r.HoldsReal t → 1 < t := by
  obtain ⟨c, hm, hp, hcert, z, hz, hi, hv, hleast⟩ := ofCertificates_eq_ok h (by simp [hd]) hc
  obtain ⟨hone, hnot⟩ := verdict_eq_holds (hv.symm.trans hd)
  obtain ⟨r, p, q, hr, hzp, hin⟩ := (hc c hm hp hcert).exists_value hz
  have hone' : (Double.one).value? = some 1 := rfl
  have hp1 : 1 ≤ p := (Double.le_iff_of_value hone' hzp).mp hone
  have hdr : d.interval = some r := Except.ok.inj (hi.symm.trans hr)
  refine ⟨⟨c, hm, hp, hcert, r, hr, hdr, fun t ht => ?_⟩, fun c' hm' hp' hcert' => ?_⟩
  · exact Rectangle.one_lt_of_holdsReal hin hp1 (hnot r hdr) ht
  · obtain ⟨z', hz', hle⟩ := hleast c' hm' hp' hcert'
    obtain ⟨r', p', q', hr', hzp', hin'⟩ := (hc c' hm' hp' hcert').exists_value hz'
    have hp1' : 1 ≤ p' := hp1.trans (hle p p' hzp hzp')
    refine ⟨⟨z', hz', (Double.le_iff_of_value hone' hzp').mpr hp1'⟩, fun r'' hr'' h1 t ht => ?_⟩
    obtain rfl := Option.some.inj (Except.ok.inj (hr'.symm.trans hr''))
    exact Rectangle.one_lt_of_holdsReal hin' hp1' h1 ht

/-- A certificate on the real line with a numeric `t` and the ends of its rectangle. -/
def onLine (t lo hi : ℚ) : Certificate :=
  ⟨[.real (.double (.finite t))], true, true, some [⟨lo, hi, 0, 0⟩], none⟩

theorem centered_onLine {t lo hi : ℚ} (hlo : lo ≤ t) (hhi : t ≤ hi) (b : Bool) :
    (onLine t lo hi).Centered b := by
  refine ⟨⟨lo, hi, 0, 0⟩, _, _, by cases b <;> rfl, rfl, ?_⟩
  have : (⟨lo, hi, 0, 0⟩ : Rectangle).contains t 0 = true := by simp [Rectangle.contains, hlo, hhi]
  exact congrArg Except.ok this

theorem one_lt_of_holds_pair : ∃ d,
    ofCertificates [onLine 3 2 4, onLine 2 2 3] .general true = .ok d ∧
      d.copositive = .holds ∧ ∃ r, d.interval = some r ∧ ∀ t, r.HoldsReal t → 1 < t := by
  have h : ofCertificates [onLine 3 2 4, onLine 2 2 3] .general true =
      .ok ⟨.holds, .general, .finite 2, [0, 1], some ⟨2, 3, 0, 0⟩,
        [onLine 3 2 4, onLine 2 2 3]⟩ := by rfl
  obtain ⟨⟨_, -, -, -, r, -, hr, hlt⟩, -⟩ := one_lt_of_holds h rfl fun c hc _ _ => by
    rcases List.mem_pair.mp hc with rfl | rfl <;>
      exact centered_onLine (by norm_num) (by norm_num) _
  exact ⟨_, h, rfl, r, hr, hlt⟩

/-- Two certificates such that the rectangle of the one that is not selected contains 1. -/
def overlapping : List Certificate := [onLine 3 2 4, onLine 4 0 8]

/-- The verdict holds although a real number below 1 lies in one of the rectangles. -/
theorem holds_overlapping :
    (∃ d, ofCertificates overlapping .general true = .ok d ∧ d.copositive = .holds) ∧
      (∀ c ∈ overlapping, c.positive = true ∧ c.certified = true ∧ c.Centered true) ∧
      ∃ t : ℕ → ℝ, (∀ (i : ℕ) (c : Certificate), overlapping[i]? = some c →
        ∃ r, c.tInterval true = .ok (some r) ∧ r.HoldsReal (t i)) ∧
          ∃ i < overlapping.length, t i < 1 := by
  refine ⟨⟨⟨.holds, .general, .finite 3, [0, 1], some ⟨2, 4, 0, 0⟩, overlapping⟩, by rfl, rfl⟩,
    ?_, fun i => if i = 0 then 3 else 1 / 2, ?_, 1, by simp [overlapping], by norm_num⟩
  · intro c hc
    rcases List.mem_pair.mp hc with rfl | rfl <;>
      exact ⟨rfl, rfl, centered_onLine (by norm_num) (by norm_num) _⟩
  · intro i c hc
    match i with
    | 0 =>
      obtain rfl := Option.some.inj hc
      exact ⟨_, rfl, by norm_num [Rectangle.HoldsReal]⟩
    | 1 =>
      obtain rfl := Option.some.inj hc
      exact ⟨_, rfl, by norm_num [Rectangle.HoldsReal]⟩
    | i + 2 => simp [overlapping] at hc

end Decision

end Orthant
