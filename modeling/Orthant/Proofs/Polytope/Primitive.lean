import Mathlib
import Orthant.Proofs.Polytope.Facets

/-! # Primitive normals

Only units divide all entries of a primitive vector, so a ray has one at most, and clearing
denominators and common divisors finds it. The hyperplane through points has a primitive normal,
since what divides the normal divides the offset too. Inequalities with primitive normals are equal
when one is a positive multiple of the other.
-/

namespace Orthant

/-- Only units divide all entries, so some entry is not zero. -/
def IsPrimitive (v : List ℤ) : Prop := ∀ d, (∀ x ∈ v, d ∣ x) → IsUnit d

theorem IsPrimitive.exists_ne_zero {v : List ℤ} (h : IsPrimitive v) : ∃ x ∈ v, x ≠ 0 := by
  by_contra hall
  push Not at hall
  exact not_isUnit_zero (h 0 fun x hx => by rw [hall x hx])

theorem IsPrimitive.exists_odd {v : List ℤ} (h : IsPrimitive v) : ∃ x ∈ v, Odd x := by
  by_contra hall
  push Not at hall
  have hunit := h 2 fun x hx => (Int.not_odd_iff_even.mp (hall x hx)).two_dvd
  exact absurd (Int.isUnit_iff.mp hunit) (by decide)

theorem IsPrimitive.map_neg {v : List ℤ} (h : IsPrimitive v) :
    IsPrimitive (v.map fun x => -x) := by
  intro d hd
  apply h
  intro x hx
  exact (dvd_neg (a := d)).mp (hd _ (List.mem_map_of_mem hx))

theorem IsPrimitive.isUnit_of_cross {v : List ℤ} (hv : IsPrimitive v) {d e : ℤ}
    (hde : IsCoprime d e) {y : ℕ → ℤ} (h : ∀ r < v.length, d * y r = e * v.getD r 0) :
    IsUnit d := by
  apply hv
  intro x hx
  obtain ⟨r, hr, rfl⟩ := List.mem_iff_getElem.mp hx
  have hdvd := hde.dvd_of_dvd_mul_left ⟨_, (h r hr).symm⟩
  rwa [List.getD_eq_getElem _ _ hr] at hdvd

theorem IsPrimitive.factor_eq_one {u u' : List ℤ} (hu : IsPrimitive u) (hu' : IsPrimitive u')
    (hl : u.length = u'.length) {t : ℝ} (ht : 0 < t)
    (h : ∀ r < u.length, ((u'.getD r 0 : ℤ) : ℝ) = t * (u.getD r 0 : ℤ)) : t = 1 := by
  obtain ⟨q, rfl⟩ : ∃ q : ℚ, (q : ℝ) = t := by
    obtain ⟨x, hx, hx0⟩ := hu.exists_ne_zero
    obtain ⟨i, hi, rfl⟩ := List.mem_iff_getElem.mp hx
    refine ⟨(u'.getD i 0 : ℤ) / (u.getD i 0 : ℤ), ?_⟩
    push_cast
    rw [h i hi, List.getD_eq_getElem _ _ hi, mul_div_cancel_right₀]
    exact_mod_cast hx0
  have hcross : ∀ r < u.length, (q.den : ℤ) * u'.getD r 0 = q.num * u.getD r 0 := by
    intro r hr
    have hr' := h r hr
    have hden : (q.den : ℝ) ≠ 0 := by exact_mod_cast q.den_ne_zero
    rw [Rat.cast_def, div_mul_eq_mul_div, eq_div_iff hden] at hr'
    rw [mul_comm]
    exact_mod_cast hr'
  have hcop : IsCoprime q.num (q.den : ℤ) :=
    Int.isCoprime_iff_gcd_eq_one.mpr (by simpa [Int.gcd] using q.reduced)
  have hden : IsUnit (q.den : ℤ) := hu.isUnit_of_cross hcop.symm hcross
  have hnum : IsUnit q.num := hu'.isUnit_of_cross hcop fun r hr => (hcross r (hl ▸ hr)).symm
  have hpos : 0 < q.num := Rat.num_pos.mpr (by exact_mod_cast ht)
  have hnum1 : q.num = 1 := by
    rcases Int.isUnit_iff.mp hnum with h1 | h1
    · exact h1
    · omega
  have hden1 : q.den = 1 := by
    rcases Int.isUnit_iff.mp hden with h1 | h1 <;> omega
  rw [Rat.cast_def, hnum1, hden1]
  norm_num

theorem IsPrimitive.eq_of_getD_eq_mul {u u' : List ℤ} (hu : IsPrimitive u) (hu' : IsPrimitive u')
    (hl : u.length = u'.length) {t : ℝ} (ht : 0 < t)
    (h : ∀ r < u.length, ((u'.getD r 0 : ℤ) : ℝ) = t * (u.getD r 0 : ℤ)) : t = 1 ∧ u' = u := by
  obtain rfl := hu.factor_eq_one hu' hl ht h
  refine ⟨rfl, List.ext_getElem hl.symm fun r hr' hr => ?_⟩
  have := h r hr
  rw [List.getD_eq_getElem _ _ hr, List.getD_eq_getElem _ _ hr', one_mul] at this
  exact_mod_cast this

theorem dvd_foldl_gcd {d : ℤ} (l : List ℤ) (a : ℤ) (ha : d ∣ a) (hl : ∀ n ∈ l, d ∣ n) :
    d ∣ l.foldl (fun acc n => (acc.gcd n.natAbs : ℤ)) a := by
  induction l generalizing a with
  | nil => exact ha
  | cons m l ih =>
    apply ih
    · exact Int.dvd_coe_gcd ha (Int.dvd_natAbs.mpr (hl m List.mem_cons_self))
    · exact fun n hn => hl n (List.mem_cons_of_mem _ hn)

theorem isPrimitive_primitive {v : Vec} {i : ℕ} (hv : entry v i ≠ 0) : IsPrimitive (primitive v) := by
  have hne : (primitive v).getD i 0 ≠ 0 := by
    obtain ⟨-, s, hs, hget⟩ := primitive_spec v
    intro h0
    have := hget i
    rw [h0, Int.cast_zero, zero_eq_mul] at this
    exact this.elim hs.ne' hv
  intro d hd
  rw [primitive] at hne hd
  set ints := v.map fun q => q.num * ((v.foldl (fun acc q => acc.lcm q.den) 1 / q.den : ℕ) : ℤ)
  obtain ⟨-, -, hdvd⟩ := foldl_gcd_spec ints 0 le_rfl
  set g := ints.foldl (fun acc n => (acc.gcd n.natAbs : ℤ)) 0 with hg
  by_cases hg0 : g = 0
  · rw [if_pos hg0] at hne
    have hi : i < ints.length := by
      by_contra hi
      exact hne (List.getD_eq_default _ _ (not_lt.mp hi))
    rw [List.getD_eq_getElem _ _ hi] at hne
    exact absurd (zero_dvd_iff.mp (hg0 ▸ hdvd _ (List.getElem_mem hi))) hne
  · rw [if_neg hg0] at hd
    have hmul : d * g ∣ g := by
      rw [hg]
      apply dvd_foldl_gcd _ _ (dvd_zero _)
      intro n hn
      have hquot := hd _ (List.mem_map_of_mem hn)
      rw [← Int.ediv_mul_cancel (hdvd n hn)]
      exact mul_dvd_mul_right hquot g
    exact isUnit_of_dvd_one ((mul_dvd_mul_iff_right hg0).mp (by rwa [one_mul]))

/-! ## Rays -/

theorem IsPrimitive.eq_of_scaleVec {u u' : List ℤ} (hu : IsPrimitive u) (hu' : IsPrimitive u')
    {t : ℚ} (ht : 0 < t) (h : toVec u' = scaleVec t (toVec u)) : u' = u := by
  have hl : u.length = u'.length := by
    simpa [toVec, scaleVec] using (congrArg List.length h).symm
  refine (hu.eq_of_getD_eq_mul hu' hl (t := (t : ℝ)) (by exact_mod_cast ht) fun r _ => ?_).2
  have hr := congrArg (entry · r) h
  simp only [entry_scaleVec, entry_toVec] at hr
  exact_mod_cast hr

theorem IsPrimitive.gcd_eq_one {v : List ℤ} (h : IsPrimitive v) : (v : Multiset ℤ).gcd = 1 := by
  rw [← Multiset.normalize_gcd, normalize_eq_one]
  exact h _ fun x hx => Multiset.gcd_dvd (Multiset.mem_coe.mpr hx)

section Ray

variable {v : Vec} {s : ℚ}

theorem toVec_primitive (v : Vec) : ∃ s : ℚ, 0 < s ∧ toVec (primitive v) = scaleVec s v := by
  obtain ⟨hl, s, hs, hget⟩ := primitive_spec v
  refine ⟨s, hs, List.ext_getElem (by simp [toVec, scaleVec, hl]) fun i hi hi' => ?_⟩
  rw [← entry_eq_getElem hi, ← entry_eq_getElem hi', entry_toVec, hget, entry_scaleVec]

theorem primitive_eq_replicate_iff : primitive v = List.replicate v.length 0 ↔ ∀ x ∈ v, x = 0 := by
  obtain ⟨s, hs, h⟩ := toVec_primitive v
  rw [← toVec_injective.eq_iff, h]
  simp [toVec, scaleVec, List.eq_replicate_iff, hs.ne']

theorem isPrimitive_of_ne_zero (hv : ¬ ∀ x ∈ v, x = 0) : IsPrimitive (primitive v) := by
  push Not at hv
  obtain ⟨x, hx, hx0⟩ := hv
  obtain ⟨i, hi, rfl⟩ := List.mem_iff_getElem.mp hx
  exact isPrimitive_primitive (i := i) (by rwa [entry_eq_getElem hi])

theorem forall_mem_scaleVec_iff (hs : 0 < s) : (∀ x ∈ scaleVec s v, x = 0) ↔ ∀ x ∈ v, x = 0 := by
  simp [scaleVec, hs.ne']

theorem primitive_scaleVec (hs : 0 < s) : primitive (scaleVec s v) = primitive v := by
  by_cases hzero : ∀ x ∈ v, x = 0
  · rw [primitive_eq_replicate_iff.mpr hzero,
      primitive_eq_replicate_iff.mpr ((forall_mem_scaleVec_iff hs).mpr hzero)]
    simp [scaleVec]
  · obtain ⟨r, hr, hv⟩ := toVec_primitive v
    obtain ⟨t, ht, hw⟩ := toVec_primitive (scaleVec s v)
    have hne : ¬ ∀ x ∈ scaleVec s v, x = 0 := fun h => hzero ((forall_mem_scaleVec_iff hs).mp h)
    apply (isPrimitive_of_ne_zero hzero).eq_of_scaleVec (isPrimitive_of_ne_zero hne)
      (mul_pos (mul_pos ht hs) (inv_pos.mpr hr))
    rw [hw, hv, scaleVec_scaleVec, scaleVec_scaleVec, inv_mul_cancel_right₀ hr.ne']

end Ray

/-- The primitive vector is an integer vector on the ray of a vector, and its entries have no common
divisor unless all are zero. Two vectors have the same one exactly when one of them is a positive
multiple of the other. -/
theorem primitive_canonical (v w : Vec) :
    (∃ s : ℚ, 0 < s ∧ toVec (primitive v) = scaleVec s v) ∧
    ((primitive v : Multiset ℤ).gcd = if ∀ x ∈ v, x = 0 then 0 else 1) ∧
    (primitive v = List.replicate v.length 0 ↔ ∀ x ∈ v, x = 0) ∧
    (primitive v = primitive w ↔ ∃ s : ℚ, 0 < s ∧ w = scaleVec s v) := by
  refine ⟨toVec_primitive v, ?gcd, primitive_eq_replicate_iff, ?multiple, ?same⟩
  case gcd =>
    split
    case isTrue hzero =>
      rw [Multiset.gcd_eq_zero_iff, primitive_eq_replicate_iff.mpr hzero]
      exact fun x hx => List.eq_of_mem_replicate hx
    case isFalse hne => exact (isPrimitive_of_ne_zero hne).gcd_eq_one
  case multiple =>
    intro h
    obtain ⟨s, hs, hv⟩ := toVec_primitive v
    obtain ⟨t, ht, hw⟩ := toVec_primitive w
    refine ⟨t⁻¹ * s, mul_pos (inv_pos.mpr ht) hs, ?_⟩
    rw [← scaleVec_scaleVec, ← hv, h, hw, scaleVec_scaleVec, inv_mul_cancel₀ ht.ne', scaleVec_one]
  case same =>
    rintro ⟨s, hs, rfl⟩
    exact (primitive_scaleVec hs).symm

example : primitive [1 / 2, -3 / 4, 0] = [2, -3, 0] := by decide_cbv

namespace Facet

variable {n : ℕ} {f f' : Facet} {points : List (List ℤ)}

theorem dvd_dotInt {d : ℤ} {u : List ℤ} (hu : ∀ x ∈ u, d ∣ x) (v : List ℤ) : d ∣ dotInt u v := by
  induction u generalizing v with
  | nil => cases v <;> simp [dotInt]
  | cons x u ih =>
    cases v with
    | nil => simp [dotInt]
    | cons y v =>
      rw [dotInt]
      apply dvd_add
      · exact Dvd.dvd.mul_right (hu x List.mem_cons_self) y
      · exact ih (fun x hx => hu x (List.mem_cons_of_mem _ hx)) v

theorem isPrimitive_of_through (hlen : ∀ p ∈ points, p.length = n) (hne : points ≠ [])
    (h : through? n points = some f) : IsPrimitive f.normal := by
  obtain ⟨-, -, hzero⟩ := through_eq_some hlen h
  rw [through?] at h
  split at h
  case h_2 => cases h
  case h_1 v hv =>
    obtain ⟨hvl, ⟨i, hi, hvi⟩, -⟩ := mem_kernel (hasWidth_rows hlen) (hv ▸ List.mem_singleton_self v)
    cases h
    intro d hd
    apply isPrimitive_primitive hvi
    intro x hx
    rw [← List.take_append_drop n (primitive v), List.mem_append] at hx
    rcases hx with hx | hx
    · exact hd x hx
    · obtain ⟨p, hp⟩ := List.exists_mem_of_ne_nil _ hne
      have hoffset := dvd_dotInt hd p
      rw [hzero p hp] at hoffset
      have hlp : (primitive v).length = n + 1 := (primitive_spec v).1.trans hvl
      obtain ⟨j, hj, rfl⟩ := List.mem_iff_getElem.mp hx
      have hj0 : j = 0 := by
        rw [List.length_drop] at hj
        omega
      subst hj0
      rw [List.getD_eq_getElem _ _ (by omega)] at hoffset
      simpa using hoffset

theorem form_single_castSucc (f : Facet) (r : Fin n) :
    f.form n ℝ (Pi.single r.castSucc 1) = -((f.normal.getD r 0 : ℤ) : ℝ) := by
  rw [form_apply]
  simp [Pi.single_apply, (Fin.castSucc_lt_last r).ne']

theorem form_single_last (f : Facet) : f.form n ℝ (Pi.single (Fin.last n) 1) = f.offset := by
  rw [form_apply]
  simp [(Fin.castSucc_lt_last _).ne]

theorem getD_of_form_eq_mul {t : ℝ} (h : ∀ x, f'.form n ℝ x = t * f.form n ℝ x) :
    (∀ r < n, ((f'.normal.getD r 0 : ℤ) : ℝ) = t * (f.normal.getD r 0 : ℤ)) ∧
      (f'.offset : ℝ) = t * f.offset := by
  constructor
  · intro r hr
    have := h (Pi.single (⟨r, hr⟩ : Fin n).castSucc 1)
    rw [form_single_castSucc, form_single_castSucc] at this
    linarith
  · simpa only [form_single_last] using h (Pi.single (Fin.last n) 1)

theorem eq_of_form_eq_mul (hl : f.normal.length = n) (hl' : f'.normal.length = n)
    (hp : IsPrimitive f.normal) (hp' : IsPrimitive f'.normal) {t : ℝ} (ht : 0 < t)
    (h : ∀ x, f'.form n ℝ x = t * f.form n ℝ x) : f' = f := by
  obtain ⟨hnormal, hoffset⟩ := getD_of_form_eq_mul h
  obtain ⟨rfl, he⟩ := hp.eq_of_getD_eq_mul hp' (hl.trans hl'.symm) ht fun r hr =>
    hnormal r (hl ▸ hr)
  obtain ⟨normal, offset⟩ := f
  obtain ⟨normal', offset'⟩ := f'
  rw [one_mul] at hoffset
  exact congrArg₂ Facet.mk he (by exact_mod_cast hoffset)

theorem exists_last_of_through (hlen : ∀ p ∈ points, p.length = n)
    (h : through? n points = some f) : ∃ k, 0 < (f.normal ++ [f.offset]).getD k 0 ∧
      ∀ j, k < j → (f.normal ++ [f.offset]).getD j 0 = 0 := by
  rw [through?] at h
  split at h
  case h_2 => cases h
  case h_1 v hv =>
    have hmem : v ∈ kernel (n + 1) (points.map fun p => toVec p ++ [-1]) :=
      hv ▸ List.mem_singleton_self v
    obtain ⟨hlp, s, hs, hget⟩ := primitive_spec v
    cases h
    have hlen : (primitive v).length = n + 1 := hlp.trans (mem_kernel (hasWidth_rows hlen) hmem).1
    have happend : (primitive v).take n ++ [(primitive v).getD n 0] = primitive v := by
      rw [List.getD_eq_getElem _ _ (by omega), List.take_append_getElem (by omega),
        List.take_of_length_le (by omega)]
    obtain ⟨k, hk, hlast⟩ := exists_last_of_mem_kernel hmem
    rw [happend]
    refine ⟨k, ?_, fun j hj => ?_⟩
    · have : (((primitive v).getD k 0 : ℤ) : ℚ) = s := by rw [hget, hk, mul_one]
      exact_mod_cast this ▸ hs
    · have : (((primitive v).getD j 0 : ℤ) : ℚ) = 0 := by rw [hget, hlast j hj, mul_zero]
      exact_mod_cast this

theorem eq_of_through {points' : List (List ℤ)} (hlen : ∀ p ∈ points, p.length = n)
    (hlen' : ∀ p ∈ points', p.length = n) (hne : points ≠ []) (hne' : points' ≠ [])
    (h : through? n points = some f) (h' : through? n points' = some f') {t : ℝ}
    (hmul : ∀ x, f'.form n ℝ x = t * f.form n ℝ x) : f' = f := by
  have hl := (through_eq_some hlen h).1
  have hl' := (through_eq_some hlen' h').1
  have hat : ∀ j, (((f'.normal ++ [f'.offset]).getD j 0 : ℤ) : ℝ) =
      t * ((f.normal ++ [f.offset]).getD j 0 : ℤ) := by
    obtain ⟨hnormal, hoffset⟩ := getD_of_form_eq_mul hmul
    intro j
    rcases lt_trichotomy j n with hj | rfl | hj
    · rw [List.getD_append _ _ _ _ (hl'.symm ▸ hj), List.getD_append _ _ _ _ (hl.symm ▸ hj)]
      exact hnormal j hj
    · rw [List.getD_append_right _ _ _ _ hl'.le, List.getD_append_right _ _ _ _ hl.le, hl, hl',
        Nat.sub_self]
      exact hoffset
    · rw [List.getD_eq_default _ _ (by simp; omega), List.getD_eq_default _ _ (by simp; omega)]
      simp
  -- The last entries that are not zero have the same place and both are positive.
  obtain ⟨k, hk, hlast⟩ := exists_last_of_through hlen h
  obtain ⟨k', hk', hlast'⟩ := exists_last_of_through hlen' h'
  have ht : 0 < t := by
    rcases lt_trichotomy k k' with hkk | rfl | hkk
    · have := hat k'
      rw [hlast k' hkk, Int.cast_zero, mul_zero, Int.cast_eq_zero] at this
      exact absurd this hk'.ne'
    · have hpos : (0 : ℝ) < t * ((f.normal ++ [f.offset]).getD k 0 : ℤ) :=
        hat k ▸ Int.cast_pos.mpr hk'
      exact pos_of_mul_pos_left hpos (Int.cast_pos.mpr hk).le
    · have := hat k
      rw [hlast' k hkk, Int.cast_zero, zero_eq_mul] at this
      rcases this with rfl | this
      · have := hat k'
        rw [zero_mul, Int.cast_eq_zero] at this
        exact absurd this hk'.ne'
      · exact absurd (Int.cast_eq_zero.mp this) hk.ne'
  exact eq_of_form_eq_mul hl hl' (isPrimitive_of_through hlen hne h)
    (isPrimitive_of_through hlen' hne' h') ht hmul

end Facet

end Orthant
