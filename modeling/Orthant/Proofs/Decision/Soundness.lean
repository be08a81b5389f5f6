import Mathlib
import Orthant.Proofs.Decision.Order
import Orthant.Proofs.Decision.Rank
import Orthant.Proofs.Decision.Selection

/-! # What a verdict says about the exact solutions

Every rectangle of an eligible certificate holds one exact `t`. A verdict compares the numeric `t` of
the selected certificate with 1 and its rectangle with the number 1. So the exact `t` of the selected
certificate lies on the side of 1 that a definite verdict names.
-/

namespace Orthant

namespace Rectangle

variable {r : Rectangle}

theorem contains_one_iff : r.contains 1 0 = true ↔ r.HoldsReal 1 := by
  simp only [contains, HoldsReal, Bool.and_eq_true, decide_eq_true_eq]
  norm_cast
  tauto

theorem lt_one_of_holdsReal {p q : ℚ} (hr : r.contains p q = true) (hp : p < 1)
    (h1 : ¬ r.HoldsReal 1) {t : ℝ} (ht : r.HoldsReal t) : t < 1 := by
  obtain ⟨-, hhi, him, him'⟩ := ht
  simp only [contains, Bool.and_eq_true, decide_eq_true_eq] at hr
  by_contra hge
  have hlo : (r.reLo : ℝ) ≤ 1 := by exact_mod_cast hr.1.1.1.trans hp.le
  exact h1 ⟨hlo, (not_lt.mp hge).trans hhi, him, him'⟩

end Rectangle

namespace Decision

open Certificate

variable {cs : List Certificate} {preferRefined : Bool} {t : ℕ → ℝ}

theorem verdict_eq_unknown_iff {x : Double} {b : Option Rectangle} :
    verdict x b = .unknown ↔ ∃ r, b = some r ∧ r.HoldsReal 1 := by
  have hbool : ∀ a : Bool, Copositivity.ofBool a ≠ .unknown := by decide
  cases b with
  | none => simp [verdict, hbool]
  | some r =>
    rw [verdict, Option.any_some]
    split
    case isTrue h => simp [Rectangle.contains_one_iff.mp h]
    case isFalse h => simp [hbool, mt Rectangle.contains_one_iff.mpr h]

theorem verdict_eq_fails {x : Double} {b : Option Rectangle} (h : verdict x b = .fails) :
    Double.one.le x = false ∧ ∀ r, b = some r → ¬ r.HoldsReal 1 := by
  have hone : ∀ r, b = some r → ¬ r.HoldsReal 1 := by
    intro r hr h1
    rw [verdict_eq_unknown_iff.mpr ⟨r, hr, h1⟩] at h
    cases h
  refine ⟨?_, hone⟩
  rw [verdict] at h
  split at h
  · cases h
  · cases hle : Double.one.le x with
    | false => rfl
    | true =>
      rw [hle] at h
      cases h

/-- One exact real `t` in the rectangle of every eligible certificate. -/
def IsChoice (cs : List Certificate) (preferRefined : Bool) (t : ℕ → ℝ) : Prop :=
  ∀ (i : ℕ) (c : Certificate), cs[i]? = some c → c.IsEligible →
    ∃ r, c.tInterval preferRefined = .ok (some r) ∧ r.HoldsReal (t i)

/-- The exact `t` of all eligible certificates. -/
def chosen (cs : List Certificate) (t : ℕ → ℝ) : Set ℝ :=
  { x | ∃ (i : ℕ) (c : Certificate), cs[i]? = some c ∧ c.IsEligible ∧ t i = x }

theorem finite_chosen (cs : List Certificate) (t : ℕ → ℝ) : (chosen cs t).Finite := by
  apply ((Set.finite_Iio cs.length).image t).subset
  rintro x ⟨i, c, hget, -, rfl⟩
  exact ⟨i, (List.getElem?_eq_some_iff.mp hget).1, rfl⟩

theorem exists_isLeast_chosen {x : ℝ} (hx : x ∈ chosen cs t) (hlt : x < 1) :
    ∃ m, IsLeast (chosen cs t) m ∧ m < 1 := by
  obtain ⟨m, hm, hle⟩ := Set.exists_min_image (chosen cs t) id (finite_chosen cs t) ⟨x, hx⟩
  exact ⟨m, ⟨hm, hle⟩, (hle x hx).trans_lt hlt⟩

theorem side_of_verdict {c : Certificate} (hnum : c.IsNumeric) (hc : c.Centered preferRefined)
    {r : Rectangle} (hr : c.tInterval preferRefined = .ok (some r)) {x : ℝ} (hx : r.HoldsReal x) :
    (verdict c.key.t (some r) = .fails → x < 1) ∧
      (verdict c.key.t (some r) = .holds → 1 < x) := by
  obtain ⟨-, -, z, hz, hkt⟩ := hnum.spec
  obtain ⟨r', p, q, hr', hp, hin⟩ := hc.exists_value hz
  obtain rfl := Option.some.inj (Except.ok.inj (hr.symm.trans hr'))
  have hone : (Double.one).value? = some 1 := rfl
  rw [hkt]
  constructor
  · intro h
    obtain ⟨hle, h1⟩ := verdict_eq_fails h
    have hp1 : p < 1 := by
      by_contra hge
      rw [(Double.le_iff_of_value hone hp).mpr (not_lt.mp hge)] at hle
      cases hle
    exact Rectangle.lt_one_of_holdsReal hin hp1 (h1 r rfl) hx
  · intro h
    obtain ⟨hle, h1⟩ := verdict_eq_holds h
    exact Rectangle.one_lt_of_holdsReal hin ((Double.le_iff_of_value hone hp).mp hle) (h1 r rfl) hx

/-- A decision from numeric candidates, each in its own rectangle. When it fails with eligible
certificates the least exact `t` lies below 1, when it holds the exact `t` of the selected certificate
lies above 1, and it is unknown when the rectangle of the selected `t` has 1 in it. -/
theorem exact_of_verdict (hnum : ∀ c ∈ cs, c.IsEligible → c.IsNumeric)
    (hcentered : ∀ c ∈ cs, c.IsEligible → c.Centered preferRefined)
    (ht : IsChoice cs preferRefined t) (method : Method) :
    ∃ d, ofCertificates cs method preferRefined = .ok d ∧
      (d.copositive = .fails → 0 < d.positive.length →
        ∃ m, IsLeast (chosen cs t) m ∧ m < 1) ∧
      (d.copositive = .holds → ∃ i c, IsSelected cs i c ∧ 1 < t i) ∧
      (d.copositive = .unknown ↔
        ∃ i c r, IsSelected cs i c ∧ c.tInterval preferRefined = .ok (some r) ∧
          r.HoldsReal 1) := by
  rcases ofCertificates_cases hnum method preferRefined with ⟨hnil, h⟩ | ⟨i, c, hsel, h⟩
  · refine ⟨_, h, fun _ hpos => absurd hpos (lt_irrefl 0), nofun, ?_⟩
    constructor
    · nofun
    · rintro ⟨i, c, r, hsel, -, -⟩
      exact absurd (hnil ▸ hsel.mem_eligible) List.not_mem_nil
  · have hmem := List.mem_of_getElem? hsel.get
    obtain ⟨r, hr, hreal⟩ := ht i c hsel.get hsel.isEligible
    obtain ⟨hbelow, habove⟩ := side_of_verdict (hnum c hmem hsel.isEligible)
      (hcentered c hmem hsel.isEligible) hr hreal
    rw [hr] at h
    refine ⟨_, h, fun hfails _ => ?_, fun hholds => ⟨i, c, hsel, habove hholds⟩, ?_⟩
    · exact exists_isLeast_chosen ⟨i, c, hsel.get, hsel.isEligible, rfl⟩ (hbelow hfails)
    · rw [verdict_eq_unknown_iff]
      constructor
      · rintro ⟨r', hr', h1⟩
        exact ⟨i, c, r, hsel, hr, Option.some.inj hr' ▸ h1⟩
      · rintro ⟨j, d, r', hsel', hr', h1⟩
        obtain ⟨rfl, rfl⟩ := hsel.unique hsel'
        exact ⟨r, rfl, Option.some.inj (Except.ok.inj (hr.symm.trans hr')) ▸ h1⟩

theorem exact_of_verdict_pair :
    ∃ d, ofCertificates [onLine 3 2 4, onLine 0 (-1) 0] .general true = .ok d ∧
      d.copositive = .fails ∧ ∃ m,
        IsLeast (chosen [onLine 3 2 4, onLine 0 (-1) 0] fun i => if i = 0 then 3 else -1) m ∧
          m < 1 := by
  have hnum : ∀ c ∈ [onLine 3 2 4, onLine 0 (-1) 0], c.IsEligible → c.IsNumeric := by
    intro c hc _
    rcases List.mem_pair.mp hc with rfl | rfl <;> exact isNumeric_onLine _ _ _
  have hcentered : ∀ c ∈ [onLine 3 2 4, onLine 0 (-1) 0], c.IsEligible → c.Centered true := by
    intro c hc _
    rcases List.mem_pair.mp hc with rfl | rfl <;>
      exact centered_onLine (by norm_num) (by norm_num) _
  have ht : IsChoice [onLine 3 2 4, onLine 0 (-1) 0] true fun i => if i = 0 then 3 else -1 := by
    intro i c hc _
    match i with
    | 0 =>
      obtain rfl := Option.some.inj hc
      exact ⟨_, rfl, by norm_num [Rectangle.HoldsReal]⟩
    | 1 =>
      obtain rfl := Option.some.inj hc
      exact ⟨_, rfl, by norm_num [Rectangle.HoldsReal]⟩
    | i + 2 => simp at hc
  have hrun : ofCertificates [onLine 3 2 4, onLine 0 (-1) 0] .general true =
      .ok ⟨.fails, .general, .finite 0, [0, 1], some ⟨-1, 0, 0, 0⟩,
        [onLine 3 2 4, onLine 0 (-1) 0]⟩ := by rfl
  obtain ⟨d, hd, hfails, -⟩ := exact_of_verdict hnum hcentered ht .general
  obtain rfl := Except.ok.inj (hrun.symm.trans hd)
  exact ⟨_, hrun, rfl, hfails rfl (by decide)⟩

end Decision

end Orthant
