import Mathlib
import Orthant.Proofs.Decision.Rank
import Orthant.Proofs.Decision.Selection

/-! # The order of certificates does not matter

A decision depends on its certified positive certificates only. In what order they stand does not
matter as long as no two of them have one key; where keys tie, the first certificate is used.
-/

namespace Orthant.Decision

open Certificate

variable {cs cs' : List Certificate}

/-- What a decision says about the support. -/
def outcome (d : Decision) : Copositivity × Double × Option Rectangle :=
  (d.copositive, d.tMin, d.interval)

theorem map_outcome_ofCertificates (cs : List Certificate) (method : Method) (preferRefined : Bool) :
    (ofCertificates cs method preferRefined).map outcome =
      match eligible cs with
      | [] => .ok (.fails, .nan, none)
      | c :: rest => (keyed c).bind fun first => (rest.mapM keyed).bind fun others =>
        (least first others).tMidpoint.bind fun t =>
          ((least first others).tInterval preferRefined).bind fun b =>
            .ok (verdict t.re b, t.re, b) := by
  unfold ofCertificates
  rw [← map_fst_positives]
  cases positives cs with
  | nil => rfl
  | cons p rest =>
    have hrest : rest.mapM (fun d => keyed d.1) = (rest.map Prod.fst).mapM keyed := by
      rw [List.mapM_map]
      rfl
    change ((keyed p.1).bind fun first => (rest.mapM fun d => keyed d.1).bind fun others =>
      (least first others).tMidpoint.bind fun t =>
        ((least first others).tInterval preferRefined).bind fun b =>
          .ok ⟨verdict t.re b, method, t.re, (p :: rest).map Prod.snd, b, cs⟩).map outcome = _
    simp only [map_bind, hrest]
    rfl

theorem eq_of_rank_eq (hdistinct : (eligible cs).Pairwise fun c d => c.rank ≠ d.rank)
    {c d : Certificate} (hc : c ∈ eligible cs) (hd : d ∈ eligible cs) (h : c.rank = d.rank) :
    c = d :=
  List.inj_on_of_nodup_map (List.pairwise_map.mpr hdistinct) hc hd h

theorem IsSelected.isLeast {i : ℕ} {c : Certificate} {t : Complex} (hsel : IsSelected cs i c)
    (hnum : ∀ c ∈ cs, c.IsEligible → c.IsNumeric) (ht : c.tMidpoint = .ok t) :
    IsLeast { x | ∃ d ∈ eligible cs, ∃ s, d.tMidpoint = .ok s ∧ s.re.extended = x }
      t.re.extended := by
  have hkey : ∀ d ∈ eligible cs, ∀ s, d.tMidpoint = .ok s → d.key.t = s.re := by
    intro d hd s hs
    obtain ⟨hmem, hel⟩ := mem_eligible_iff.mp hd
    obtain ⟨-, -, s', hs', he⟩ := (hnum d hmem hel).spec
    rw [he, Except.ok.inj (hs.symm.trans hs')]
  constructor
  · exact ⟨c, hsel.mem_eligible, t, ht, rfl⟩
  · rintro x ⟨d, hd, s, hs, rfl⟩
    rw [← hkey c hsel.mem_eligible t ht, ← hkey d hd s hs]
    exact Key.t_le_of_rank_le (hsel.rank_le hd)

theorem outcome_eq_of_perm (hnum : ∀ c ∈ cs, c.IsEligible → c.IsNumeric)
    (hperm : (eligible cs).Perm (eligible cs'))
    (hdistinct : (eligible cs).Pairwise fun c d => c.rank ≠ d.rank) (method : Method)
    (preferRefined : Bool) :
    (ofCertificates cs' method preferRefined).map outcome =
      (ofCertificates cs method preferRefined).map outcome := by
  have hnum' : ∀ c ∈ cs', c.IsEligible → c.IsNumeric := by
    intro c hc hel
    obtain ⟨hc, hel⟩ := mem_eligible_iff.mp (hperm.mem_iff.mpr (mem_eligible_iff.mpr ⟨hc, hel⟩))
    exact hnum c hc hel
  rcases ofCertificates_cases hnum method preferRefined with ⟨hnil, h⟩ | ⟨i, c, hsel, h⟩
  · rcases ofCertificates_cases hnum' method preferRefined with ⟨-, h'⟩ | ⟨j, d, hsel', -⟩
    · rw [h, h']
      rfl
    · rw [hnil, List.nil_perm] at hperm
      exact absurd (hperm ▸ hsel'.mem_eligible) List.not_mem_nil
  · rcases ofCertificates_cases hnum' method preferRefined with ⟨hnil, -⟩ | ⟨j, d, hsel', h'⟩
    · rw [hnil, List.perm_nil] at hperm
      exact absurd (hperm ▸ hsel.mem_eligible) List.not_mem_nil
    · have hd := hperm.mem_iff.mpr hsel'.mem_eligible
      have hc := hperm.mem_iff.mp hsel.mem_eligible
      obtain rfl : c = d := eq_of_rank_eq hdistinct hsel.mem_eligible hd
        (le_antisymm (hsel.rank_le hd) (hsel'.rank_le hc))
      rw [h, h']
      cases c.tInterval preferRefined <;> rfl

/-- A decision from numeric candidates depends on the certified positive certificates. Their order does
not matter if their keys differ; its `t` is the least of theirs. Whether keys differ or not, it is what
the first certificate of the least key says. -/
theorem outcome_of_eligible (hnum : ∀ c ∈ cs, c.IsEligible → c.IsNumeric) (method : Method)
    (preferRefined : Bool) :
    (∀ cs', (eligible cs).Perm (eligible cs') →
      (eligible cs).Pairwise (fun c d => c.rank ≠ d.rank) →
        (ofCertificates cs' method preferRefined).map outcome =
          (ofCertificates cs method preferRefined).map outcome) ∧
    (∀ d, ofCertificates cs method preferRefined = .ok d → eligible cs ≠ [] →
      IsLeast { x | ∃ c ∈ eligible cs, ∃ t, c.tMidpoint = .ok t ∧ t.re.extended = x }
        d.tMin.extended) ∧
    (eligible cs ≠ [] → ∃ i c t, IsSelected cs i c ∧ c.tMidpoint = .ok t ∧
      (ofCertificates cs method preferRefined).map outcome =
        (c.tInterval preferRefined).map fun b => (verdict t.re b, t.re, b)) := by
  refine ⟨fun cs' hperm hdistinct => outcome_eq_of_perm hnum hperm hdistinct method preferRefined,
    fun d hd hne => ?_, fun hne => ?_⟩
  all_goals
    obtain ⟨i, c, hsel, h⟩ := (ofCertificates_cases hnum method preferRefined).resolve_left
      fun hnil => hne hnil.1
    obtain ⟨-, -, t, ht, hkt⟩ := (hnum c (List.mem_of_getElem? hsel.get) hsel.isEligible).spec
    rw [hkt] at h
  · rw [h] at hd
    cases hb : c.tInterval preferRefined with
    | error e =>
      rw [hb] at hd
      cases hd
    | ok b =>
      rw [hb] at hd
      cases hd
      exact hsel.isLeast hnum ht
  · refine ⟨i, c, t, hsel, ht, ?_⟩
    rw [h]
    cases c.tInterval preferRefined <;> rfl

theorem isNumeric_onLine (t lo hi : ℚ) : (onLine t lo hi).IsNumeric :=
  ⟨⟨.finite t, .zero⟩, [], rfl, by simp [Double.isNaN, Double.zero]⟩

theorem outcome_of_eligible_swapped :
    (eligible [onLine 3 2 4, onLine 2 2 3]).Pairwise (fun c d => c.rank ≠ d.rank) ∧
    (ofCertificates [{ onLine 0 0 0 with certified := false }, onLine 2 2 3, onLine 3 2 4]
      .general true).map outcome = .ok (.holds, .finite 2, some ⟨2, 3, 0, 0⟩) := by
  have hnum : ∀ c ∈ [onLine 3 2 4, onLine 2 2 3], c.IsEligible → c.IsNumeric := by
    intro c hc _
    rcases List.mem_pair.mp hc with rfl | rfl <;> exact isNumeric_onLine _ _ _
  have hdistinct : (eligible [onLine 3 2 4, onLine 2 2 3]).Pairwise fun c d => c.rank ≠ d.rank := by
    change [onLine 3 2 4, onLine 2 2 3].Pairwise _
    refine List.pairwise_pair.mpr fun h => ?_
    have ht : (((3 : ℚ) : ℝ) : EReal) = (((2 : ℚ) : ℝ) : EReal) := (Prod.ext_iff.mp h).1
    norm_num at ht
  exact ⟨hdistinct, (outcome_of_eligible hnum .general true).1
    [{ onLine 0 0 0 with certified := false }, onLine 2 2 3, onLine 3 2 4] (List.Perm.swap _ _ _)
    hdistinct⟩

end Orthant.Decision
