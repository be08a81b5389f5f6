import Mathlib
import Orthant.Family
import Orthant.Proofs.EquationSystem.Falling
import Orthant.Proofs.Family.Corners
import Orthant.Proofs.Support

/-! # The support of a member

Whatever the order of the variables, the powers and the constant are the positive terms of a member,
listed as the corners are, and the product is the only negative one.
-/

namespace Orthant

open Equation

variable {n : ℕ} {d : ℤ}

/-- A support whose positive exponents are the corners and whose only negative one is the product. -/
structure Support.IsSimplicial (n : ℕ) (d : ℤ) (s : Support) : Prop where
  checked : s.checked = .ok s
  isSmooth : s.isSmooth = true
  dimension : s.dimension = n
  positive : s.positiveExponents = corners n d
  negative : s.negativeExponents = [ones n]
  hasCorners : HasCorners n d s.exponents

def Support.ofEquation (names : List String) (e : Equation) : Support :=
  ⟨names, e.map Prod.fst, e.map Prod.snd, true⟩

theorem Support.checked_ofEquation {names : List String} {e : Equation}
    (h : ∀ r ∈ e, r.2 ≠ .undefined) : (ofEquation names e).checked = .ok (ofEquation names e) :=
  checked_of_defined (by simp [ofEquation]) (List.forall_mem_map.mpr h)

theorem eq_corners_of_perm (hd : 0 < d) {l : List (List ℤ)} (h : l.Perm (corners n d))
    (hfalling : l.Pairwise fun a b => fallingLex a b = true) : l = corners n d := by
  have hlen : ∀ q ∈ corners n d, q.length = n := (hasCorners_corners hd).length
  have hcorners : (corners n d).Pairwise fun a b => fallingLex a b = true :=
    (pairwise_corners hd).imp_of_mem fun {a b} ha hb hlt =>
      fallingLex_of_lt ((hlen a ha).trans (hlen b hb).symm) hlt
  exact List.Perm.eq_of_pairwise (fun a b _ _ => fallingLex_antisymm) hfalling hcorners h

namespace Member

variable {m : Member} {order : List ℕ} {c : ℚ}

/-! ## Rows -/

theorem map_power (horder : order.Nodup) (d : ℤ) :
    (order.map fun i => order.map fun j => if i = j then d else 0) =
      (List.range order.length).map (corner order.length d) := by
  refine List.ext_getElem (by simp) fun k hk hk' => ?_
  refine List.ext_getElem (by simp) fun l hl hl' => ?_
  simp [corner, horder.getElem_inj_iff]

theorem positive_perm (horder : order.Perm (List.range n)) (d : ℤ) :
    ((List.range n).map (fun i => order.map fun j => if i = j then d else 0) ++
      [order.map fun _ => (0 : ℤ)]).Perm (corners n d) := by
  have hlen : order.length = n := by simpa using horder.length_eq
  have hnd : order.Nodup := horder.nodup_iff.mpr List.nodup_range
  have hconstant : order.map (fun _ => (0 : ℤ)) = corner n d n := by
    refine List.ext_getElem (by simp [hlen]) fun k hk hk' => ?_
    have hk : k < n := by simpa using hk'
    simp [corner, hk.ne']
  have hpowers := (horder.symm.map fun i => order.map fun j => if i = j then d else 0).trans
    (.of_eq (map_power hnd d))
  rw [hlen] at hpowers
  rw [corners, List.range_succ, List.map_append, hconstant]
  exact hpowers.append_right _

theorem map_one (horder : order.Perm (List.range n)) : order.map (fun _ => (1 : ℤ)) = ones n := by
  rw [List.map_const', horder.length_eq, List.length_range, ones]

section Positive

variable (horder : order.Perm (List.range m.count)) (hc : 0 < c)

include horder

theorem rows_eq (hc : c ≠ 0) : m.rows order c =
    ((List.range m.count).map fun i => order.map fun j => if i = j then m.degree else 0).map
        (fun a => (a, .one)) ++
      [(ones m.count, .approx doubleBits (-c))] ++ [(order.map fun _ => 0, .one)] := by
  rw [rows, if_neg hc, map_one horder, List.map_map]
  rfl

theorem exponents_rows (hc : c ≠ 0) :
    ((m.rows order c).map Prod.fst).Perm (ones m.count :: corners m.count m.degree) := by
  rw [rows_eq horder hc, List.map_append, List.map_append, List.map_map]
  refine List.perm_append_comm.append_right _ |>.trans ?_
  refine .cons _ (.trans (.of_eq ?_) (positive_perm horder m.degree))
  simp [Function.comp_def]

include hc

theorem filter_rows :
    ((m.rows order c).filter fun r => !r.2.isNegative).map Prod.fst =
        (List.range m.count).map (fun i => order.map fun j => if i = j then m.degree else 0) ++
          [order.map fun _ => 0] ∧
      ((m.rows order c).filter fun r => r.2.isNegative).map Prod.fst = [ones m.count] := by
  have hneg : (.approx doubleBits (-c) : Number).isNegative = true := decide_eq_true (neg_neg_of_pos hc)
  have hone : (.one : Number).isNegative = false := by decide
  rw [rows_eq horder hc.ne']
  constructor <;> simp [List.filter_map, Function.comp_def, hneg, hone]

theorem isZero_rows : ∀ r ∈ m.rows order c, r.2.isZero = false ∧ r.2 ≠ .undefined := by
  intro r hr
  have hone : (.one : Number).isZero = false := by decide
  rw [rows_eq horder hc.ne'] at hr
  simp only [List.mem_append, List.mem_map, List.mem_singleton] at hr
  obtain (⟨a, -, rfl⟩ | rfl) | rfl := hr
  · exact ⟨hone, by simp [Number.one]⟩
  · exact ⟨by simpa [Number.isZero] using hc.ne', by simp⟩
  · exact ⟨hone, by simp [Number.one]⟩

end Positive

/-! ## Supports -/

theorem supportOfRows_eq {names : List String} {e : Equation}
    (hword : ∀ r ∈ e, ∀ x ∈ r.1, isWord x = true) :
    supportOfRows names e = .ok (.ofEquation names e) := by
  have hexps : e.mapM (fun r => r.1.mapM toWord) = .ok (e.map Prod.fst) :=
    mapM_eq_ok fun r hr => mapM_toWord_iff.mpr (hword r hr)
  exact bind_eq_ok.mpr ⟨_, hexps, rfl⟩

theorem signed_map {e : Equation} {g : Number → Number}
    (hsign : ∀ c, (g c).isNegative = c.isNegative) (names : List String) :
    (Support.ofEquation names (e.map fun r => (r.1, g r.2))).positiveExponents =
        (e.filter fun r => !r.2.isNegative).map Prod.fst ∧
      (Support.ofEquation names (e.map fun r => (r.1, g r.2))).negativeExponents =
        (e.filter fun r => r.2.isNegative).map Prod.fst := by
  have hterms : (Support.ofEquation names (e.map fun r => (r.1, g r.2))).terms =
      e.map fun r => (r.1, g r.2) := by
    rw [Support.terms, Support.ofEquation, List.zip_map', List.map_id']
  constructor
  · rw [Support.positiveExponents, Support.positiveTerms, hterms, List.filter_map, List.map_map]
    simp [Function.comp_def, hsign]
  · rw [Support.negativeExponents, Support.negativeTerms, hterms, List.filter_map, List.map_map]
    simp [Function.comp_def, hsign]

theorem supportIn_of_value (hne : order ≠ []) (hvalue : m.coefficient.value? = some c)
    (hdegree : 0 ≤ m.degree) : m.supportIn order =
      supportOfRows (order.map nameAt) ((collect m.count (m.rows order c)).listing m.count) := by
  have hnan : ¬ m.coefficient.isNaN = true := by
    cases h : m.coefficient <;> simp [h, Double.value?, Double.isNaN] at hvalue ⊢
  rw [supportIn, if_neg (by simpa using hne), if_neg hnan, if_neg (by omega), hvalue]

theorem supportIn_returns (horder : order.Perm (List.range m.count))
    (hvalue : m.coefficient.value? = some c) (hc : 0 < c) (hcount : 1 ≤ m.count)
    (hdegree : 1 ≤ m.degree) (hword : isWord m.degree = true)
    (hcase : 2 ≤ m.count ∨ (m.count : ℤ) < m.degree) :
    ∃ s, m.supportIn order = .ok s ∧ s.IsSimplicial m.count m.degree := by
  have hlen : order.length = m.count := by simpa using horder.length_eq
  have hnd : (ones m.count :: corners m.count m.degree).Nodup :=
    List.nodup_cons.mpr ⟨ones_notMem_corners hcount hcase, (hasCorners_corners hdegree).nodup⟩
  have hexps := exponents_rows (m := m) horder hc.ne'
  have hrows := isZero_rows horder hc
  have hcollect := collect_of_nodup hrows (hexps.nodup_iff.mpr hnd) m.count
  obtain ⟨e, g, hperm, hfalling, hlisting, hsign⟩ := exists_listing_falling Number.exists_unify_sign
    (fun h => by simp [h] at hexps : m.rows order c ≠ []) m.count
  have hcorners : HasCorners m.count m.degree (e.map Prod.fst) :=
    hasCorners_of_perm ((hperm.map _).trans hexps) hnd
  obtain ⟨hpositive, hnegative⟩ := signed_map (e := e) (fun c => (hsign c).1) (order.map nameAt)
  obtain ⟨hpos, hneg⟩ := filter_rows (m := m) horder hc
  refine ⟨.ofEquation (order.map nameAt) (e.map fun r => (r.1, g r.2)), ?read, ?checked, rfl,
    ?dimension, ?positive, ?negative, ?hasCorners⟩
  case read =>
    rw [supportIn_of_value (List.ne_nil_of_length_pos (by omega)) hvalue (by omega), hcollect, hlisting]
    refine supportOfRows_eq fun r hr => ?_
    obtain ⟨t, ht, rfl⟩ := List.mem_map.mp hr
    exact fun x hx => (hcorners.isWord hdegree hword _ (List.mem_map_of_mem ht) x hx).2
  case checked =>
    refine Support.checked_ofEquation fun r hr he => ?_
    obtain ⟨t, ht, rfl⟩ := List.mem_map.mp hr
    exact (hrows t (hperm.mem_iff.mp ht)).2 ((hsign _).2.mp he)
  case dimension => simpa [Support.dimension, Support.ofEquation] using hlen
  case positive =>
    rw [hpositive]
    exact eq_corners_of_perm hdegree
      (((hperm.filter _).map _).trans (hpos ▸ positive_perm horder m.degree))
      (List.pairwise_map.mpr (hfalling.filter _))
  case negative =>
    rw [hnegative]
    exact List.perm_singleton.mp (((hperm.filter _).map _).trans (.of_eq hneg))
  case hasCorners =>
    rw [Support.ofEquation, List.map_map]
    exact hcorners

end Member

end Orthant
