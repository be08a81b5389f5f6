import Mathlib
import Orthant.Proofs.Except
import Orthant.Proofs.EquationSystem.Specialization

/-! # Exact evaluation

At a point that has an exact value for every unknown and parameter, the exact value of an equation
is the sum of its rows.
-/

namespace Orthant

namespace Equation

open EquationSystem

variable {K : Type} [Field K] [Exact K] {e : Equation K}

theorem foldl_known {a : List ℤ} {point : List K} {q : K} :
    (a.zip (point.map some)).foldl (fun p f => match f.2 with
      | some x => p * x ^ f.1
      | none => p) q = q * weight (point.map .exact) a := by
  induction a generalizing point q with
  | nil => simp [weight]
  | cons x a ih =>
    cases point with
    | nil => simp [weight]
    | cons v point =>
      have hweight : weight ((v :: point).map .exact) (x :: a) =
          v ^ x * weight (point.map .exact) a := by
        simp [weight]
      simp only [List.map_cons, List.zip_cons_cons, List.foldl_cons]
      rw [ih, ← List.map_cons, hweight, mul_assoc]

/-- What is left of a row when every place has a value: zero exponents and its weighted
coefficient. -/
theorem substitute_known {point : List K} {r : Row K} (hlen : r.1.length = point.length) :
    substitute (point.map some) r =
      (List.replicate point.length 0, r.2.value * weight (point.map .exact) r.1) := by
  have hmap : (r.1.zip (point.map some)).map
      (fun f => if f.2.isSome then (0 : ℤ) else f.1) = List.replicate point.length 0 := by
    refine List.eq_replicate_iff.mpr ⟨by simp [hlen], fun x hx => ?_⟩
    obtain ⟨f, hf, rfl⟩ := List.mem_map.mp hx
    obtain ⟨q, -, hq⟩ := List.mem_map.mp (List.of_mem_zip hf).2
    simp [← hq]
  simp only [substitute, List.length_map, hlen, Nat.sub_self, List.replicate_zero, List.append_nil]
  exact Prod.ext hmap foldl_known

/-- Values without exponents, and their sum. -/
structure IsSum (l : List (List ℤ × K)) (q : K) : Prop where
  zero : ∀ t ∈ l, ∀ x ∈ t.1, x = 0
  sum : (l.map Prod.snd).sum = q

omit [Exact K] in
theorem IsSum.insert {l : List (List ℤ × K)} {q p : K} {k : ℕ} (h : IsSum l q) :
    IsSum (insertValue (List.replicate k 0, p) l) (p + q) := by
  obtain ⟨hzero, rfl⟩ := h
  induction l with
  | nil => exact ⟨by simp [insertValue], by simp [insertValue]⟩
  | cons t l ih =>
    obtain ⟨hz, hzero⟩ := List.forall_mem_cons.mp hzero
    obtain ⟨ihz, ihs⟩ := ih hzero
    rw [insertValue]
    split
    · refine ⟨List.forall_mem_cons.mpr ⟨hz, hzero⟩, ?_⟩
      rw [List.map_cons, List.sum_cons, List.map_cons, List.sum_cons]
      ring
    · refine ⟨List.forall_mem_cons.mpr ⟨hz, ihz⟩, ?_⟩
      rw [List.map_cons, List.sum_cons, ihs, List.map_cons, List.sum_cons]
      ring

omit [Exact K] in
theorem IsSum.foldl_insert {l : List (List ℤ × K)} {q : K} (h : IsSum l q) (ps : List K) (k : ℕ) :
    IsSum ((ps.map fun p => (List.replicate k (0 : ℤ), p)).foldl
      (fun acc t => insertValue t acc) l) (ps.sum + q) := by
  induction ps generalizing l q with
  | nil => simpa using h
  | cons p ps ih =>
    have := ih (h.insert (p := p) (k := k))
    rw [List.sum_cons, add_comm p, add_assoc]
    exact this

omit [Exact K] in
theorem IsSum.foldl_add {l : List (List ℤ × K)} {q : K} (h : IsSum l q) (p : K) :
    l.foldl (fun acc t => acc + t.2) p = p + q := by
  obtain ⟨hzero, rfl⟩ := h
  induction l generalizing p with
  | nil => simp
  | cons t l ih =>
    rw [List.foldl_cons, ih _ (List.forall_mem_cons.mp hzero).2, List.map_cons, List.sum_cons,
      add_assoc]

variable [LawfulExact K]

theorem IsSum.filter {l : List (List ℤ × K)} {q : K} (h : IsSum l q) :
    IsSum (l.filter fun t => !Exact.isZero t.2) q := by
  obtain ⟨hzero, rfl⟩ := h
  refine ⟨fun t ht => hzero t (List.mem_of_mem_filter ht), ?_⟩
  induction l with
  | nil => rfl
  | cons t l ih =>
    have ih := ih (List.forall_mem_cons.mp hzero).2
    by_cases ht : Exact.isZero t.2 = true
    · rw [List.filter_cons_of_neg (by simp [ht]), ih, List.map_cons, List.sum_cons,
        (LawfulExact.isZero_iff _).mp ht, zero_add]
    · rw [List.filter_cons_of_pos (by simp [ht]), List.map_cons, List.sum_cons, ih, List.map_cons,
        List.sum_cons]

theorem exactValue_known {point : List K} (hrow : ∀ r ∈ e, r.1.length = point.length) :
    exactValue (point.map some) e = .ok (e.total (weight (point.map .exact))) := by
  have hsubst : e.map (substitute (point.map some)) =
      (e.map fun r => r.2.value * weight (point.map .exact) r.1).map fun p =>
        (List.replicate point.length 0, p) := by
    rw [List.map_map]
    exact List.map_congr_left fun r hr => substitute_known (hrow r hr)
  have hsum : IsSum ([] : List (List ℤ × K)) 0 := ⟨by simp, rfl⟩
  have hleft := (hsum.foldl_insert
    (e.map fun r => r.2.value * weight (point.map .exact) r.1) point.length).filter
  simp only [exactValue, hsubst]
  rw [if_neg]
  · rw [hleft.foldl_add, LawfulExact.ofRat_eq, Rat.cast_zero, zero_add, add_zero]
    rfl
  · intro hany
    obtain ⟨t, ht, hx⟩ := List.any_eq_true.mp hany
    obtain ⟨x, hx, hne⟩ := List.any_eq_true.mp hx
    exact absurd (hleft.zero t ht x hx) (by simpa using hne)

end Equation

namespace EquationSystem

theorem assign_length {α : Type} (values : List α) :
    assign values.length values = values.map some := by
  refine List.ext_getElem (by simp [assign]) fun i _ hi => ?_
  have hi : i < values.length := by simpa using hi
  simp [assign, hi]

section Known

variable {K : Type} [Field K] [Exact K] {s : EquationSystem K} {point parameters : List K}
  (hpoint : point.length = s.unknowns.length)
  (hparameters : parameters.length = s.parameters.length)

include hpoint hparameters

omit [Field K] [Exact K] in
theorem assignment_known : s.assignment point parameters = (point ++ parameters).map some := by
  rw [assignment, ← hpoint, ← hparameters, assign_length, assign_length, List.map_append]

theorem exactValues_known [LawfulExact K]
    (hrow : ∀ e ∈ s.equations, ∀ r ∈ e, r.1.length = s.width) :
    s.exactValues point parameters =
      .ok (s.equations.map (Equation.total · (weight ((point ++ parameters).map .exact)))) := by
  rw [exactValues, assignment_known hpoint hparameters]
  refine mapM_eq_ok fun e he => Equation.exactValue_known fun r hr => ?_
  rw [List.length_append, hpoint, hparameters]
  exact hrow e he r hr

end Known

end EquationSystem

end Orthant
