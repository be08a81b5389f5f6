import Mathlib
import Orthant.Expr.Plain

/-! # Arithmetic of sparse polynomials

Polynomials with rational coefficients are normal when all exponents have one length and fall and no
coefficient is zero. Each operation keeps them normal and does to the values what it does to the
polynomials.
-/

namespace Orthant

/-! ## The falling order -/

theorem compares_compareFalling {a b : List ℕ} (h : a.length = b.length) :
    (compareFalling a b).Compares b a := by
  induction a generalizing b with
  | nil =>
    obtain rfl := List.length_eq_zero_iff.mp h.symm
    rfl
  | cons x a ih =>
    obtain ⟨y, b, rfl⟩ := List.exists_cons_of_length_eq_add_one h.symm
    have ih := ih (show a.length = b.length by simpa using h)
    rw [compareFalling]
    split
    case isTrue hxy =>
      subst hxy
      cases hc : compareFalling a b with
      | lt => exact List.cons_lt_cons_iff.mpr (.inr ⟨rfl, by simpa [hc] using ih⟩)
      | eq => exact congrArg _ (by simpa [hc] using ih)
      | gt => exact List.cons_lt_cons_iff.mpr (.inr ⟨rfl, by simpa [hc] using ih⟩)
    case isFalse hxy =>
      split
      case isTrue hlt => exact List.cons_lt_cons_iff.mpr (.inl hlt)
      case isFalse hle =>
        exact List.cons_lt_cons_iff.mpr (.inl (lt_of_le_of_ne (not_lt.mp hle) hxy))

theorem eq_of_compareFalling {a b : List ℕ} (h : compareFalling a b = .eq) : a = b := by
  fun_induction compareFalling a b with
  | case1 => rfl
  | case2 => cases h
  | case3 => cases h
  | case4 a as bs ih => rw [ih h]
  | case5 => cases h
  | case6 => cases h

theorem zipWith_add_lt {t a b : List ℕ} (h : a.length = b.length) (ht : t.length = a.length)
    (hab : a < b) : List.zipWith (· + ·) t a < List.zipWith (· + ·) t b := by
  induction t generalizing a b with
  | nil =>
    obtain rfl := List.length_eq_zero_iff.mp ht.symm
    obtain rfl := List.length_eq_zero_iff.mp h.symm
    exact absurd hab (lt_irrefl _)
  | cons k t ih =>
    obtain ⟨x, a, rfl⟩ := List.exists_cons_of_length_eq_add_one ht.symm
    obtain ⟨y, b, rfl⟩ := List.exists_cons_of_length_eq_add_one h.symm
    simp only [List.length_cons, Nat.add_right_cancel_iff] at h ht
    simp only [List.zipWith_cons_cons, List.cons_lt_cons_iff, Nat.add_lt_add_iff_left,
      Nat.add_left_cancel_iff] at hab ⊢
    exact hab.imp_right fun ⟨he, hlt⟩ => ⟨he, ih h ht hlt⟩

/-! ## Values -/

namespace Sparse

def powers (u : List ℚ) (a : List ℕ) : ℚ := (List.zipWith (· ^ ·) u a).prod

/-- The value of a polynomial. -/
def eval (u : List ℚ) (p : Sparse ℚ) : ℚ := (p.map fun t => t.2 * powers u t.1).sum

/-- All exponents have one length and fall, and no coefficient is zero. -/
structure IsNormal (n : ℕ) (p : Sparse ℚ) : Prop where
  length : ∀ t ∈ p, t.1.length = n
  falling : p.Pairwise fun s t => t.1 < s.1
  nonzero : ∀ t ∈ p, t.2 ≠ 0

section Values

variable {u : List ℚ} {n : ℕ} {p q : Sparse ℚ}

@[simp] theorem eval_nil (u : List ℚ) : eval u [] = 0 := rfl

@[simp] theorem eval_cons (u : List ℚ) (t : List ℕ × ℚ) (p : Sparse ℚ) :
    eval u (t :: p) = t.2 * powers u t.1 + eval u p := by
  simp [eval]

theorem powers_replicate (u : List ℚ) (n : ℕ) : powers u (List.replicate n 0) = 1 := by
  refine List.prod_eq_one fun x hx => ?_
  obtain ⟨i, hi, rfl⟩ := List.mem_iff_getElem.mp hx
  simp

theorem powers_add {a b : List ℕ} (h : a.length = b.length) :
    powers u (List.zipWith (· + ·) a b) = powers u a * powers u b := by
  induction a generalizing u b with
  | nil =>
    obtain rfl := List.length_eq_zero_iff.mp h.symm
    simp [powers]
  | cons x a ih =>
    obtain ⟨y, b, rfl⟩ := List.exists_cons_of_length_eq_add_one h.symm
    cases u with
    | nil => simp [powers]
    | cons v u =>
      have ih := ih (u := u) (show a.length = b.length by simpa using h)
      simp only [powers, List.zipWith_cons_cons, List.prod_cons] at ih ⊢
      rw [ih, pow_add]
      ring

theorem powers_mul (u : List ℚ) (a : List ℕ) (k : ℕ) :
    powers u (a.map (· * k)) = powers u a ^ k := by
  induction a generalizing u with
  | nil => simp [powers]
  | cons x a ih =>
    cases u with
    | nil => simp [powers]
    | cons v u =>
      have ih := ih u
      simp only [powers, List.map_cons, List.zipWith_cons_cons, List.prod_cons] at ih ⊢
      rw [ih, mul_pow, pow_mul]

theorem powers_unit {i : ℕ} (hi : i < u.length) :
    powers u ((List.range u.length).map fun j => if j = i then 1 else 0) = u[i] := by
  have hget : List.zipWith (· ^ ·) u ((List.range u.length).map fun j => if j = i then 1 else 0) =
      (List.range u.length).map fun j => if j = i then u[i] else 1 := by
    refine List.ext_getElem (by simp) fun j hj _ => ?_
    simp only [List.getElem_zipWith, List.getElem_map, List.getElem_range]
    split
    case isTrue he => simp [he]
    case isFalse => exact pow_zero _
  have hprod : ((List.range u.length).map fun j => if j = i then u[i] else 1).prod =
      ∏ j ∈ Finset.range u.length, if j = i then u[i] else 1 := rfl
  rw [powers, hget, hprod, Finset.prod_ite_eq' _ _ fun _ => u[i], if_pos (Finset.mem_range.mpr hi)]

theorem eval_constant (u : List ℚ) (n : ℕ) (c : ℚ) : eval u (constant .rational n c) = c := by
  rw [constant]
  split
  case isTrue h => exact (of_decide_eq_true h).symm
  case isFalse => rw [eval_cons, powers_replicate, eval_nil, mul_one, add_zero]

theorem eval_indeterminate {i : ℕ} (hi : i < u.length) :
    eval u (indeterminate .rational u.length i) = u[i] := by
  rw [indeterminate, eval_cons, powers_unit hi, eval_nil, add_zero]
  exact one_mul _

theorem eval_neg (u : List ℚ) (p : Sparse ℚ) : eval u (neg .rational p) = -eval u p := by
  induction p with
  | nil => simp [neg]
  | cons t p ih =>
    have hcons : neg .rational (t :: p) = (t.1, -t.2) :: neg .rational p := rfl
    rw [hcons, eval_cons, ih, eval_cons]
    ring

theorem eval_scale (u : List ℚ) (c : ℚ) (p : Sparse ℚ) :
    eval u (scale .rational c p) = c * eval u p := by
  induction p with
  | nil => simp [scale]
  | cons t p ih =>
    have hcons : scale .rational c (t :: p) = (t.1, c * t.2) :: scale .rational c p := rfl
    rw [hcons, eval_cons, ih, eval_cons]
    ring

theorem eval_add (u : List ℚ) (p q : Sparse ℚ) :
    eval u (add .rational p q) = eval u p + eval u q := by
  fun_induction add Scalars.rational p q with
  | case1 q => simp
  | case2 p => simp
  | case3 a c p b d q _ ih =>
    rw [eval_cons, ih, eval_cons, eval_cons]
    ring
  | case4 a c p b d q _ ih =>
    rw [eval_cons, ih, eval_cons, eval_cons]
    ring
  | case5 a c p b d q h e hzero ih =>
    obtain rfl := eq_of_compareFalling h
    have hsum : c + d = 0 := of_decide_eq_true hzero
    rw [ih, eval_cons, eval_cons]
    linear_combination -powers u a * hsum
  | case6 a c p b d q h e _ ih =>
    obtain rfl := eq_of_compareFalling h
    have hsum : e = c + d := rfl
    rw [eval_cons, ih, eval_cons, eval_cons]
    dsimp only
    rw [hsum]
    ring

theorem eval_mulTerm {t : List ℕ × ℚ} (h : ∀ s ∈ p, t.1.length = s.1.length) :
    eval u (mulTerm .rational t p) = t.2 * powers u t.1 * eval u p := by
  induction p with
  | nil => simp [mulTerm]
  | cons s p ih =>
    obtain ⟨hs, h⟩ := List.forall_mem_cons.mp h
    have hcons : mulTerm .rational t (s :: p) =
        (List.zipWith (· + ·) t.1 s.1, t.2 * s.2) :: mulTerm .rational t p := rfl
    rw [hcons, eval_cons, ih h, eval_cons, powers_add hs]
    ring

theorem eval_mul (hp : ∀ t ∈ p, t.1.length = n) (hq : ∀ t ∈ q, t.1.length = n) :
    eval u (mul .rational p q) = eval u p * eval u q := by
  induction p with
  | nil => simp [mul]
  | cons t p ih =>
    obtain ⟨ht, hp⟩ := List.forall_mem_cons.mp hp
    have hcons : mul .rational (t :: p) q =
        add .rational (mulTerm .rational t q) (mul .rational p q) := rfl
    rw [hcons, eval_add, ih hp, eval_mulTerm fun s hs => ht.trans (hq s hs).symm, eval_cons]
    ring

end Values

/-! ## Normal polynomials -/

namespace IsNormal

variable {n : ℕ} {p q : Sparse ℚ} {t : List ℕ × ℚ}

theorem nil (n : ℕ) : IsNormal n [] := ⟨nofun, .nil, nofun⟩

theorem singleton (hlen : t.1.length = n) (ht : t.2 ≠ 0) : IsNormal n [t] := by
  refine ⟨fun s hs => ?_, List.pairwise_singleton _ _, fun s hs => ?_⟩
  · rwa [List.mem_singleton.mp hs]
  · rwa [List.mem_singleton.mp hs]

theorem tail (h : IsNormal n (t :: p)) : IsNormal n p :=
  ⟨(List.forall_mem_cons.mp h.length).2, (List.pairwise_cons.mp h.falling).2,
    (List.forall_mem_cons.mp h.nonzero).2⟩

theorem cons (h : IsNormal n p) (hlen : t.1.length = n) (ht : t.2 ≠ 0)
    (hlt : ∀ s ∈ p, s.1 < t.1) : IsNormal n (t :: p) :=
  ⟨List.forall_mem_cons.mpr ⟨hlen, h.length⟩, List.pairwise_cons.mpr ⟨hlt, h.falling⟩,
    List.forall_mem_cons.mpr ⟨ht, h.nonzero⟩⟩

theorem constant (n : ℕ) (c : ℚ) : IsNormal n (Sparse.constant .rational n c) := by
  rw [Sparse.constant]
  split
  case isTrue => exact nil n
  case isFalse h =>
    exact singleton List.length_replicate fun hc => h (decide_eq_true hc)

theorem indeterminate (n i : ℕ) : IsNormal n (Sparse.indeterminate .rational n i) :=
  singleton (by simp) one_ne_zero

theorem neg (h : IsNormal n p) : IsNormal n (Sparse.neg .rational p) := by
  refine ⟨fun t ht => ?_, List.pairwise_map.mpr h.falling, fun t ht => ?_⟩
  all_goals obtain ⟨s, hs, rfl⟩ := List.mem_map.mp ht
  · exact h.length s hs
  · exact neg_ne_zero.mpr (h.nonzero s hs)

theorem scale (h : IsNormal n p) {c : ℚ} (hc : c ≠ 0) :
    IsNormal n (Sparse.scale .rational c p) := by
  refine ⟨fun t ht => ?_, List.pairwise_map.mpr h.falling, fun t ht => ?_⟩
  all_goals obtain ⟨s, hs, rfl⟩ := List.mem_map.mp ht
  · exact h.length s hs
  · exact mul_ne_zero hc (h.nonzero s hs)

theorem mulTerm (h : IsNormal n p) (hlen : t.1.length = n) (ht : t.2 ≠ 0) :
    IsNormal n (Sparse.mulTerm .rational t p) := by
  refine ⟨fun s hs => ?_, List.pairwise_map.mpr ?_, fun s hs => ?_⟩
  · obtain ⟨r, hr, rfl⟩ := List.mem_map.mp hs
    simp [hlen, h.length r hr]
  · refine h.falling.imp_of_mem fun {r s} hr hs hlt => ?_
    exact zipWith_add_lt ((h.length s hs).trans (h.length r hr).symm)
      (hlen.trans (h.length s hs).symm) hlt
  · obtain ⟨r, hr, rfl⟩ := List.mem_map.mp hs
    exact mul_ne_zero ht (h.nonzero r hr)

theorem exponent_of_mem_add (ht : t ∈ Sparse.add .rational p q) :
    (∃ s ∈ p, s.1 = t.1) ∨ ∃ s ∈ q, s.1 = t.1 := by
  fun_induction Sparse.add Scalars.rational p q with
  | case1 q => exact .inr ⟨t, ht, rfl⟩
  | case2 p => exact .inl ⟨t, ht, rfl⟩
  | case3 a c p b d q _ ih =>
    rcases List.mem_cons.mp ht with rfl | ht
    · exact .inl ⟨_, List.mem_cons_self, rfl⟩
    · exact (ih ht).imp_left fun ⟨s, hs, he⟩ => ⟨s, List.mem_cons_of_mem _ hs, he⟩
  | case4 a c p b d q _ ih =>
    rcases List.mem_cons.mp ht with rfl | ht
    · exact .inr ⟨_, List.mem_cons_self, rfl⟩
    · exact (ih ht).imp_right fun ⟨s, hs, he⟩ => ⟨s, List.mem_cons_of_mem _ hs, he⟩
  | case5 a c p b d q _ e _ ih =>
    exact (ih ht).imp (fun ⟨s, hs, he⟩ => ⟨s, List.mem_cons_of_mem _ hs, he⟩)
      fun ⟨s, hs, he⟩ => ⟨s, List.mem_cons_of_mem _ hs, he⟩
  | case6 a c p b d q _ e _ ih =>
    rcases List.mem_cons.mp ht with rfl | ht
    · exact .inl ⟨_, List.mem_cons_self, rfl⟩
    · exact (ih ht).imp (fun ⟨s, hs, he⟩ => ⟨s, List.mem_cons_of_mem _ hs, he⟩)
        fun ⟨s, hs, he⟩ => ⟨s, List.mem_cons_of_mem _ hs, he⟩

theorem add_lt {a : List ℕ} (hp : ∀ s ∈ p, s.1 < a) (hq : ∀ s ∈ q, s.1 < a) :
    ∀ t ∈ Sparse.add .rational p q, t.1 < a := by
  intro t ht
  rcases exponent_of_mem_add ht with ⟨s, hs, he⟩ | ⟨s, hs, he⟩
  · exact he ▸ hp s hs
  · exact he ▸ hq s hs

theorem add (hp : IsNormal n p) (hq : IsNormal n q) : IsNormal n (Sparse.add .rational p q) := by
  fun_induction Sparse.add Scalars.rational p q with
  | case1 q => exact hq
  | case2 p => exact hp
  | case3 a c p b d q h ih =>
    have hlen : a.length = b.length := (hp.length _ List.mem_cons_self).trans
      (hq.length _ List.mem_cons_self).symm
    have hba : b < a := by simpa [h] using compares_compareFalling hlen
    obtain ⟨hpa, -⟩ := List.pairwise_cons.mp hp.falling
    obtain ⟨hqb, -⟩ := List.pairwise_cons.mp hq.falling
    refine (ih hp.tail hq).cons (hp.length _ List.mem_cons_self) (hp.nonzero _ List.mem_cons_self)
      (add_lt hpa ?_)
    exact List.forall_mem_cons.mpr ⟨hba, fun s hs => (hqb s hs).trans hba⟩
  | case4 a c p b d q h ih =>
    have hlen : a.length = b.length := (hp.length _ List.mem_cons_self).trans
      (hq.length _ List.mem_cons_self).symm
    have hab : a < b := by simpa [h] using compares_compareFalling hlen
    obtain ⟨hpa, -⟩ := List.pairwise_cons.mp hp.falling
    obtain ⟨hqb, -⟩ := List.pairwise_cons.mp hq.falling
    refine (ih hp hq.tail).cons (hq.length _ List.mem_cons_self) (hq.nonzero _ List.mem_cons_self)
      (add_lt ?_ hqb)
    exact List.forall_mem_cons.mpr ⟨hab, fun s hs => (hpa s hs).trans hab⟩
  | case5 a c p b d q _ e _ ih => exact ih hp.tail hq.tail
  | case6 a c p b d q h e hzero ih =>
    obtain rfl := eq_of_compareFalling h
    exact (ih hp.tail hq.tail).cons (hp.length (a, c) List.mem_cons_self)
      (fun he => hzero (decide_eq_true he))
      (add_lt (List.pairwise_cons.mp hp.falling).1 (List.pairwise_cons.mp hq.falling).1)

theorem mul (hp : IsNormal n p) (hq : IsNormal n q) : IsNormal n (Sparse.mul .rational p q) := by
  induction p with
  | nil => exact nil n
  | cons t p ih =>
    exact (hq.mulTerm (hp.length _ List.mem_cons_self) (hp.nonzero _ List.mem_cons_self)).add
      (ih hp.tail)

theorem pow (hp : IsNormal n p) (k : ℕ) : IsNormal n (Sparse.pow .rational n p k) := by
  induction k with
  | zero => exact constant n 1
  | succ k ih => exact hp.mul ih

end IsNormal

theorem eval_pow {u : List ℚ} {n : ℕ} {p : Sparse ℚ} (hp : IsNormal n p) (k : ℕ) :
    eval u (pow .rational n p k) = eval u p ^ k := by
  induction k with
  | zero =>
    rw [pow_zero]
    exact eval_constant u n 1
  | succ k ih => rw [pow, eval_mul hp.length (hp.pow k).length, ih, pow_succ']

end Sparse

end Orthant
