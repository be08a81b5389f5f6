import Mathlib
import Orthant.Polytope.Facets
import Orthant.Proofs.Lattice.Word
import Orthant.Proofs.Linear.Kernel

/-! # Facets support the hull

The hyperplane through points is a linear form on lifted vectors that vanishes there. A facet is
kept when the products with all points are on one side; where these products are words it is an
inequality that holds at all points.
-/

namespace Orthant

/-! ## Primitive vectors -/

section Primitive

variable {v : Vec}

theorem foldl_lcm_spec (l : List ℚ) (a : ℕ) (ha : 0 < a) :
    0 < l.foldl (fun acc q => acc.lcm q.den) a ∧ a ∣ l.foldl (fun acc q => acc.lcm q.den) a ∧
      ∀ q ∈ l, q.den ∣ l.foldl (fun acc q => acc.lcm q.den) a := by
  induction l generalizing a with
  | nil => simp [ha]
  | cons q l ih =>
    obtain ⟨hpos, hdvd, hl⟩ := ih (a.lcm q.den) (Nat.lcm_pos ha q.den_pos)
    refine ⟨hpos, (Nat.dvd_lcm_left a q.den).trans hdvd, fun r hr => ?_⟩
    rcases List.mem_cons.mp hr with rfl | hr
    · exact (Nat.dvd_lcm_right a r.den).trans hdvd
    · exact hl r hr

theorem foldl_gcd_spec (l : List ℤ) (a : ℤ) (ha : 0 ≤ a) :
    0 ≤ l.foldl (fun acc n => (acc.gcd n.natAbs : ℤ)) a ∧
      l.foldl (fun acc n => (acc.gcd n.natAbs : ℤ)) a ∣ a ∧
      ∀ n ∈ l, l.foldl (fun acc n => (acc.gcd n.natAbs : ℤ)) a ∣ n := by
  induction l generalizing a with
  | nil => simp [ha]
  | cons m l ih =>
    obtain ⟨hpos, hdvd, hl⟩ := ih (a.gcd m.natAbs) (Int.natCast_nonneg _)
    refine ⟨hpos, hdvd.trans (Int.gcd_dvd_left ..), fun n hn => ?_⟩
    rcases List.mem_cons.mp hn with rfl | hn
    · exact hdvd.trans ((Int.gcd_dvd_right ..).trans (Int.natAbs_dvd.mpr dvd_rfl))
    · exact hl n hn

theorem entry_toVec (p : List ℤ) (i : ℕ) : entry (toVec p) i = ((p.getD i 0 : ℤ) : ℚ) := by
  simp only [entry, toVec, List.getD_eq_getElem?_getD, List.getElem?_map]
  cases p[i]? <;> simp

theorem toVec_injective : Function.Injective toVec :=
  List.map_injective_iff.mpr Int.cast_injective

theorem primitive_spec (v : Vec) : (primitive v).length = v.length ∧
    ∃ s : ℚ, 0 < s ∧ ∀ i, (((primitive v).getD i 0 : ℤ) : ℚ) = s * entry v i := by
  obtain ⟨hpos, -, hden⟩ := foldl_lcm_spec v 1 one_pos
  set l := v.foldl (fun acc q => acc.lcm q.den) 1 with hl
  have hint : ∀ q ∈ v, ((q.num * ((l / q.den : ℕ) : ℤ) : ℤ) : ℚ) = l * q := by
    intro q hq
    have hq0 : (q.den : ℚ) ≠ 0 := by exact_mod_cast q.den_ne_zero
    rw [Int.cast_mul, Int.cast_natCast, Nat.cast_div (hden q hq) hq0]
    nth_rewrite 3 [← Rat.num_div_den q]
    field_simp
  have hl0 : (0 : ℚ) < l := by exact_mod_cast hpos
  have hget : ∀ i, (((v.map fun q => q.num * ((l / q.den : ℕ) : ℤ)).getD i 0 : ℤ) : ℚ) =
      l * entry v i := by
    intro i
    by_cases hi : i < v.length
    · rw [List.getD_eq_getElem _ _ (by simpa using hi), entry_eq_getElem hi, List.getElem_map]
      exact hint _ (List.getElem_mem hi)
    · rw [entry_of_length_le (not_lt.mp hi)]
      simp [hi]
  rw [primitive, ← hl]
  split
  case isTrue => exact ⟨by simp, l, hl0, hget⟩
  case isFalse hg =>
    obtain ⟨hg0, -, hdvd⟩ :=
      foldl_gcd_spec (v.map fun q => q.num * ((l / q.den : ℕ) : ℤ)) 0 le_rfl
    set g := (v.map fun q => q.num * ((l / q.den : ℕ) : ℤ)).foldl
      (fun acc n => (acc.gcd n.natAbs : ℤ)) 0 with hgdef
    have hg0 : (0 : ℚ) < g := by exact_mod_cast lt_of_le_of_ne hg0 (Ne.symm hg)
    refine ⟨by simp, l / g, div_pos hl0 hg0, fun i => ?_⟩
    rw [div_mul_eq_mul_div, ← hget i]
    by_cases hi : i < v.length
    · have hi' : i < (v.map fun q => q.num * ((l / q.den : ℕ) : ℤ)).length := by simpa using hi
      rw [List.getD_eq_getElem _ _ (by simpa using hi), List.getD_eq_getElem _ _ hi',
        List.getElem_map, Int.cast_div (hdvd _ (List.getElem_mem hi')) hg0.ne']
    · simp [hi]

end Primitive

/-! ## Hyperplanes as forms -/

/-- The coordinates of a point in space of dimension `n` with 1 behind them. -/
def liftPoint (n : ℕ) (K : Type*) [Ring K] (p : List ℤ) : Fin (n + 1) → K :=
  fun r => if (r : ℕ) < n then ((p.getD r 0 : ℤ) : K) else 1

namespace Facet

variable {n : ℕ} {f f' : Facet} {points : List (List ℤ)}

/-- How far a lifted vector lies inside the inequality. -/
def form (f : Facet) (n : ℕ) (K : Type*) [Field K] : (Fin (n + 1) → K) →ₗ[K] K where
  toFun x := f.offset * x (Fin.last n) - ∑ r : Fin n, ((f.normal.getD r 0 : ℤ) : K) * x r.castSucc
  map_add' x y := by
    simp only [Pi.add_apply, mul_add, Finset.sum_add_distrib]
    ring
  map_smul' t x := by
    simp only [Pi.smul_apply, smul_eq_mul, mul_left_comm _ t, ← Finset.mul_sum, ← mul_sub,
      RingHom.id_apply]

theorem form_apply (K : Type*) [Field K] (x : Fin (n + 1) → K) : f.form n K x =
    f.offset * x (Fin.last n) - ∑ r : Fin n, ((f.normal.getD r 0 : ℤ) : K) * x r.castSucc :=
  rfl

theorem form_liftPoint (K : Type*) [Field K] {p : List ℤ} (hp : p.length = n) :
    f.form n K (liftPoint n K p) = ((f.offset - dotInt f.normal p : ℤ) : K) := by
  rw [form_apply, dotInt_eq_sum hp]
  simp [liftPoint]

@[simp] theorem neg_neg : f.neg.neg = f := by simp [neg]

theorem form_neg (K : Type*) [Field K] : f.neg.form n K = -f.form n K := by
  refine LinearMap.ext fun x => ?_
  rw [LinearMap.neg_apply, form_apply, form_apply]
  have : ∀ r : Fin n, ((f.neg.normal.getD r 0 : ℤ) : K) = -((f.normal.getD r 0 : ℤ) : K) := by
    intro r
    by_cases hr : (r : ℕ) < f.normal.length <;> simp [neg, hr]
  have hoff : (f.neg.offset : K) = -f.offset := by simp [neg]
  simp only [this, hoff, neg_mul, Finset.sum_neg_distrib]
  ring

theorem form_ne_zero (K : Type*) [Field K] [CharZero K]
    (h : f.offset ≠ 0 ∨ ∃ r < n, f.normal.getD r 0 ≠ 0) : f.form n K ≠ 0 := by
  intro h0
  rcases h with h | ⟨r, hr, h⟩
  · have := LinearMap.congr_fun h0 (Pi.single (Fin.last n) 1)
    rw [form_apply] at this
    simp [h] at this
  · have := LinearMap.congr_fun h0 (Pi.single (Fin.castSucc ⟨r, hr⟩) 1)
    rw [form_apply] at this
    simp only [Pi.single_apply, Fin.castSucc_inj] at this
    rw [if_neg (Fin.castSucc_lt_last _).ne'] at this
    simp only [mul_zero, mul_ite, mul_one, Finset.sum_ite_eq', Finset.mem_univ, if_true, zero_sub,
      LinearMap.zero_apply, neg_eq_zero, Int.cast_eq_zero] at this
    exact h this

theorem hasWidth_rows (hlen : ∀ p ∈ points, p.length = n) :
    HasWidth (n + 1) (points.map fun p => toVec p ++ [-1]) := by
  intro row hrow
  obtain ⟨p, hp, rfl⟩ := List.mem_map.mp hrow
  simp [toVec, hlen p hp]

theorem sum_entry_row {p : List ℤ} (hp : p.length = n) (x : Fin (n + 1) → ℚ) :
    ∑ i : Fin (n + 1), entry (toVec p ++ [-1]) i * x i =
      ∑ r : Fin n, ((p.getD r 0 : ℤ) : ℚ) * x r.castSucc - x (Fin.last n) := by
  have hv : (toVec p).length = n := by simp [toVec, hp]
  rw [Fin.sum_univ_castSucc, sub_eq_add_neg]
  congr 1
  · refine Finset.sum_congr rfl fun r _ => ?_
    have hr : (r : ℕ) < (toVec p).length := hv.symm ▸ r.isLt
    rw [Fin.val_castSucc, entry_append_left hr, entry_eq_getElem hr,
      List.getD_eq_getElem _ _ (hp.symm ▸ r.isLt)]
    simp [toVec]
  · have := entry_append_right (toVec p) [-1] 0
    rw [hv, add_zero] at this
    rw [Fin.val_last, this]
    simp [entry]

/-- A hyperplane through points contains them and is not everything. -/
theorem through_eq_some (hlen : ∀ p ∈ points, p.length = n) (h : through? n points = some f) :
    f.normal.length = n ∧ (∀ (K : Type) [Field K] [CharZero K], f.form n K ≠ 0) ∧
      ∀ p ∈ points, dotInt f.normal p = f.offset := by
  rw [through?] at h
  split at h
  case h_2 => cases h
  case h_1 v hv =>
    have hw := hasWidth_rows hlen
    obtain ⟨hvl, ⟨i, hi, hne⟩, hnull⟩ := mem_kernel hw (hv ▸ List.mem_singleton_self v)
    obtain ⟨hlp, s, hs, hget⟩ := primitive_spec v
    cases h
    have htake : ∀ r < n, ((primitive v).take n).getD r 0 = (primitive v).getD r 0 := fun r hr => by
      simp [List.getD_eq_getElem?_getD, hr]
    refine ⟨by simp [hlp, hvl], fun K _ _ => form_ne_zero K ?_, fun p hp => ?_⟩
    · have hne' : (primitive v).getD i 0 ≠ 0 := fun h0 => by
        have := hget i
        rw [h0, Int.cast_zero, zero_eq_mul] at this
        exact this.elim hs.ne' hne
      rcases Nat.lt_succ_iff_lt_or_eq.mp hi with hi | rfl
      · exact Or.inr ⟨i, hi, by rwa [htake i hi]⟩
      · exact Or.inl hne'
    · have hrow := hnull _ (List.mem_map.mpr ⟨p, hp, rfl⟩)
      rw [sum_entry_row (hlen p hp), sub_eq_zero] at hrow
      have hcast : ((dotInt ((primitive v).take n) p : ℤ) : ℚ) = ((primitive v).getD n 0 : ℤ) := by
        rw [dotInt_eq_sum (hlen p hp), hget n, Int.cast_sum]
        rw [Fin.val_last] at hrow
        rw [← hrow, Finset.mul_sum]
        refine Finset.sum_congr rfl fun r _ => ?_
        rw [htake r r.isLt, Int.cast_mul, hget r, Fin.val_castSucc]
        ring
      exact_mod_cast hcast

theorem stored_eq_ok (h : f.stored = .ok f') : f' = f := by
  obtain ⟨normal, hn, h⟩ := bind_eq_ok.mp h
  obtain ⟨offset, ho, h⟩ := bind_eq_ok.mp h
  cases h
  rw [mapM_eq_self (fun _ _ => toWord_eq_ok) hn, toWord_eq_ok ho]

theorem stored_iff : f.stored = .ok f ↔
    (∀ x ∈ f.normal, isWord x = true) ∧ isWord f.offset = true := by
  constructor
  · intro h
    obtain ⟨normal, hn, h⟩ := bind_eq_ok.mp h
    obtain ⟨offset, ho, h⟩ := bind_eq_ok.mp h
    rw [mapM_eq_self (fun _ _ => toWord_eq_ok) hn] at hn
    refine ⟨mapM_toWord_iff.mp hn, ?_⟩
    rw [toWord] at ho
    split at ho
    · assumption
    · cases ho
  · rintro ⟨hn, ho⟩
    refine bind_eq_ok.mpr ⟨_, mapM_toWord_iff.mpr hn, bind_eq_ok.mpr ⟨f.offset, ?_, rfl⟩⟩
    rw [toWord, if_pos ho]

theorem supporting_eq_ok {s : List ℕ} (h : f.supporting points s = .ok f') :
    (f' = f ∧ ∀ p ∈ points, dotWord f.normal p ≤ f.offset) ∨
      (f' = f.neg ∧ ∀ p ∈ points, f.offset ≤ dotWord f.normal p) := by
  obtain ⟨normal, hn, h⟩ := bind_eq_ok.mp h
  rw [mapM_eq_self (fun _ _ => toWord_eq_ok) hn] at h
  dsimp only at h
  split at h
  case isTrue hle =>
    cases h
    exact Or.inl ⟨rfl, by simpa using hle⟩
  case isFalse =>
    split at h
    case isTrue hle =>
      cases h
      exact Or.inr ⟨rfl, by simpa using hle⟩
    case isFalse => cases h

/-- With a normal of words, the products decide which way the hyperplane is turned. -/
theorem supporting_eq (hn : ∀ x ∈ f.normal, isWord x = true) (s : List ℕ) :
    f.supporting points s = if (points.map (dotWord f.normal)).all (· ≤ f.offset) then .ok f
      else if (points.map (dotWord f.normal)).all (f.offset ≤ ·) then .ok f.neg
      else .error (.notSupporting s) := by
  simp only [supporting, mapM_toWord_iff.mpr hn]
  rfl

/-- An inequality that holds at all points and does not say nothing. -/
structure Supports (f : Facet) (n : ℕ) (points : List (List ℤ)) : Prop where
  ne_zero : ∀ (K : Type) [Field K] [CharZero K], f.form n K ≠ 0
  le : ∀ p ∈ points, dotInt f.normal p ≤ f.offset

/-- A hyperplane with all points on its upper side supports them when it is turned. -/
theorem supports_neg (hne : ∀ (K : Type) [Field K] [CharZero K], f.form n K ≠ 0)
    (hge : ∀ p ∈ points, f.offset ≤ dotInt f.normal p) : f.neg.Supports n points := by
  constructor
  · intro K _ _
    rw [form_neg]
    exact neg_ne_zero.mpr (hne K)
  · intro p hp
    rw [neg, dotInt_neg]
    exact neg_le_neg (hge p hp)

theorem dotInt_le_of_supporting {s : List ℕ} (hs : f.supporting points s = .ok f') {p : List ℤ}
    (hp : p ∈ points) (hw : isWord (dotInt f'.normal p) = true) :
    dotInt f'.normal p ≤ f'.offset := by
  rcases supporting_eq_ok hs with ⟨rfl, hle⟩ | ⟨rfl, hge⟩
  · rw [← wrap_of_isWord hw]
    exact hle p hp
  · rw [neg, dotInt_neg] at hw ⊢
    exact le_neg_of_le_wrap hw (hge p hp)

theorem supports_of_supporting {through : List (List ℤ)} {s : List ℕ}
    (hlen : ∀ p ∈ through, p.length = n) (h : through? n through = some f)
    (hs : f.supporting points s = .ok f')
    (hword : ∀ p ∈ points, isWord (dotInt f'.normal p) = true) : f'.Supports n points := by
  obtain ⟨-, hne, -⟩ := through_eq_some hlen h
  constructor
  · intro K _ _
    rcases supporting_eq_ok hs with ⟨rfl, -⟩ | ⟨rfl, -⟩
    · exact hne K
    · rw [form_neg]
      exact neg_ne_zero.mpr (hne K)
  · exact fun p hp => dotInt_le_of_supporting hs hp (hword p hp)

end Facet

namespace Polytope

variable {p : Polytope} {fs : List Facet}

theorem addThrough_eq_ok {acc acc' : List Facet} {s : List ℕ} (h : p.addThrough acc s = .ok acc') :
    (acc' = acc ∧ Facet.through? p.ambient (pick p.points s) = none) ∨
      ∃ f f', Facet.through? p.ambient (pick p.points s) = some f ∧
        f.supporting p.points s = .ok f' ∧ ∀ g, g ∈ acc' ↔ g ∈ acc ∨ g = f' := by
  rw [addThrough] at h
  split at h
  case h_1 hn => exact Or.inl ⟨(Except.ok.inj h).symm, hn⟩
  case h_2 f hf =>
    obtain ⟨f', hf', h⟩ := bind_eq_ok.mp h
    refine Or.inr ⟨f, f', hf, hf', fun g => ?_⟩
    obtain rfl := Except.ok.inj h
    split
    case isTrue hc => simp only [List.contains_iff_mem] at hc; aesop
    case isFalse => simp

/-- The facets through proposed sets of points are the hyperplanes through them, turned to the
points. -/
theorem facetsThrough_eq_ok {L : List (List ℕ)} (h : p.facetsThrough L = .ok fs) :
    (∀ f' ∈ fs, ∃ s ∈ L, ∃ f, Facet.through? p.ambient (pick p.points s) = some f ∧
      f.supporting p.points s = .ok f') ∧
    ∀ s ∈ L, ∀ f, Facet.through? p.ambient (pick p.points s) = some f →
      ∃ f' ∈ fs, f.supporting p.points s = .ok f' := by
  obtain ⟨found, hfound, h⟩ := bind_eq_ok.mp h
  obtain rfl := mapM_eq_self (fun _ _ => Facet.stored_eq_ok) h
  constructor
  · refine foldlM_keeps (P := fun acc => ∀ f' ∈ acc, ∃ s ∈ L, ∃ f,
      Facet.through? p.ambient (pick p.points s) = some f ∧ f.supporting p.points s = .ok f')
      (fun acc s hs acc' hacc hok => ?_) (by simp) hfound
    rcases addThrough_eq_ok hok with ⟨rfl, -⟩ | ⟨f, f', hf, hf', hmem⟩
    · exact hacc
    · intro g hg
      rcases (hmem g).mp hg with hg | rfl
      · exact hacc g hg
      · exact ⟨s, hs, f, hf, hf'⟩
  · refine foldlM_collects (Q := fun s acc => ∀ f,
      Facet.through? p.ambient (pick p.points s) = some f →
        ∃ f' ∈ acc, f.supporting p.points s = .ok f')
      (fun acc s _ acc' hok f hf => ?_) (fun acc s _ acc' hok s' hQ f hf => ?_) hfound
    · rcases addThrough_eq_ok hok with ⟨-, hn⟩ | ⟨g, f', hg, hf', hmem⟩
      · rw [hn] at hf; cases hf
      · rw [hg] at hf; cases hf
        exact ⟨f', (hmem f').mpr (Or.inr rfl), hf'⟩
    · obtain ⟨f', hf', hsup⟩ := hQ f hf
      rcases addThrough_eq_ok hok with ⟨rfl, -⟩ | ⟨_, g', -, -, hmem⟩
      · exact ⟨f', hf', hsup⟩
      · exact ⟨f', (hmem f').mpr (Or.inl hf'), hsup⟩

/-- The facets through proposed sets are returned, each once, if every hyperplane can be turned to the
points and stored. -/
theorem facetsThrough_returns {L : List (List ℕ)}
    (h : ∀ s ∈ L, ∀ f, Facet.through? p.ambient (pick p.points s) = some f →
      ∃ f', f.supporting p.points s = .ok f' ∧ f'.stored = .ok f') :
    ∃ fs, p.facetsThrough L = .ok fs ∧ fs.Nodup := by
  obtain ⟨found, hfound, hnd, hstored⟩ := foldlM_returns (f := p.addThrough) (l := L) (b := [])
    (P := fun acc => acc.Nodup ∧ ∀ f ∈ acc, f.stored = .ok f) (fun acc s hs hacc => by
      rw [addThrough]
      cases hf : Facet.through? p.ambient (pick p.points s) with
      | none => exact ⟨acc, rfl, hacc⟩
      | some f =>
        obtain ⟨f', hf', hst⟩ := h s hs f hf
        refine ⟨_, bind_eq_ok.mpr ⟨f', hf', rfl⟩, ?_⟩
        split
        case isTrue => exact hacc
        case isFalse hnew =>
          rw [List.contains_iff_mem] at hnew
          constructor
          · rw [List.nodup_append_comm]
            exact List.nodup_cons.mpr ⟨hnew, hacc.1⟩
          · intro g hg
            rcases List.mem_append.mp hg with hg | hg
            · exact hacc.2 g hg
            · exact List.mem_singleton.mp hg ▸ hst) (by simp)
  refine ⟨found, bind_eq_ok.mpr ⟨found, hfound, ?_⟩, hnd⟩
  simpa using mapM_eq_ok (g := id) hstored

theorem le_foldl_max (xs : List ℤ) (a : ℤ) :
    a ≤ xs.foldl max a ∧ ∀ x ∈ xs, x ≤ xs.foldl max a := by
  induction xs generalizing a with
  | nil => simp
  | cons y xs ih =>
    obtain ⟨ha, hx⟩ := ih (max a y)
    refine ⟨(le_max_left a y).trans ha, fun x hx' => ?_⟩
    rcases List.mem_cons.mp hx' with rfl | hx'
    · exact (le_max_right a x).trans ha
    · exact hx x hx'

theorem foldl_min_le (xs : List ℤ) (a : ℤ) :
    xs.foldl min a ≤ a ∧ ∀ x ∈ xs, xs.foldl min a ≤ x := by
  induction xs generalizing a with
  | nil => simp
  | cons y xs ih =>
    obtain ⟨ha, hx⟩ := ih (min a y)
    refine ⟨ha.trans (min_le_left a y), fun x hx' => ?_⟩
    rcases List.mem_cons.mp hx' with rfl | hx'
    · exact ha.trans (min_le_right a x)
    · exact hx x hx'

theorem maximum_eq {xs : List ℤ} {x : ℤ} (hx : x ∈ xs) (h : ∀ y ∈ xs, y ≤ x) : maximum xs = x := by
  refine le_antisymm ?_ ((le_foldl_max xs _).2 x hx)
  have hle : ∀ (ys : List ℤ) (a : ℤ), a ≤ x → (∀ y ∈ ys, y ≤ x) → ys.foldl max a ≤ x := by
    intro ys
    induction ys with
    | nil => simp
    | cons y ys ih =>
      intro a ha hys
      exact ih _ (max_le ha (hys y List.mem_cons_self)) fun z hz => hys z (List.mem_cons_of_mem _ hz)
  cases xs with
  | nil => cases hx
  | cons y ys => exact hle _ _ (h y List.mem_cons_self) h

theorem minimum_eq {xs : List ℤ} {x : ℤ} (hx : x ∈ xs) (h : ∀ y ∈ xs, x ≤ y) : minimum xs = x := by
  refine le_antisymm ((foldl_min_le xs _).2 x hx) ?_
  have hle : ∀ (ys : List ℤ) (a : ℤ), x ≤ a → (∀ y ∈ ys, x ≤ y) → x ≤ ys.foldl min a := by
    intro ys
    induction ys with
    | nil => simp
    | cons y ys ih =>
      intro a ha hys
      exact ih _ (le_min ha (hys y List.mem_cons_self)) fun z hz => hys z (List.mem_cons_of_mem _ hz)
  cases xs with
  | nil => cases hx
  | cons y ys => exact hle _ _ (h y List.mem_cons_self) h

theorem pick_length (hlen : ∀ q ∈ p.points, q.length = p.ambient) {s : List ℕ}
    (hs : ∀ i ∈ s, i < p.points.length) : ∀ q ∈ pick p.points s, q.length = p.ambient := by
  intro q hq
  obtain ⟨i, hi, rfl⟩ := List.mem_map.mp hq
  rw [List.getD_eq_getElem _ _ (hs i hi)]
  exact hlen _ (List.getElem_mem _)

theorem lt_of_mem_facetSimplices {n : ℕ} {points : List (List ℤ)} {s : List ℕ}
    (hs : s ∈ facetSimplices n points) : ∀ i ∈ s, i < points.length := fun _ hi =>
  List.mem_range.mp ((mem_choices.mp (List.mem_filter.mp hs).1).1.subset hi)

def ends (p : Polytope) : List Facet :=
  [⟨[1], maximum (p.coordinates 0)⟩, ⟨[-1], -minimum (p.coordinates 0)⟩]

theorem supports_of_mem_ends (h1 : p.ambient = 1) (hlen : ∀ q ∈ p.points, q.length = p.ambient) :
    ∀ f ∈ p.ends, f.Supports p.ambient p.points := by
  have hq : ∀ q ∈ p.points, ∃ x, q = [x] ∧ x ∈ p.coordinates 0 := fun q hq => by
    obtain ⟨x, rfl⟩ := List.length_eq_one_iff.mp ((hlen q hq).trans h1)
    exact ⟨x, rfl, List.mem_map.mpr ⟨[x], hq, rfl⟩⟩
  intro f hf
  rcases List.mem_pair.mp hf with rfl | rfl
  · refine ⟨fun K _ _ => Facet.form_ne_zero K (Or.inr ⟨0, by omega, by simp⟩), fun q hqm => ?_⟩
    obtain ⟨x, rfl, hx⟩ := hq q hqm
    simpa [dotInt, maximum] using (le_foldl_max _ _).2 x hx
  · refine ⟨fun K _ _ => Facet.form_ne_zero K (Or.inr ⟨0, by omega, by simp⟩), fun q hqm => ?_⟩
    obtain ⟨x, rfl, hx⟩ := hq q hqm
    simpa [dotInt, minimum] using (foldl_min_le _ _).2 x hx

/-- Facets belong to a full dimension. On the line they are the ends, elsewhere they go through the
proposed sets of points. -/
theorem facets_eq_ok {program : FacetProgram} (h : p.facets program = .ok fs) :
    p.isFull = true ∧ 0 < p.ambient ∧
      ((p.ambient = 1 ∧ p.ends.mapM Facet.stored = .ok fs) ∨
        (p.ambient ≠ 1 ∧ p.facetsThrough (program p.ambient p.points) = .ok fs)) := by
  rw [facets] at h
  split at h
  · cases h
  case isFalse hfull =>
    split at h
    · cases h
    case isFalse h0 =>
      refine ⟨by simpa using hfull, Nat.pos_of_ne_zero h0, ?_⟩
      split at h
      case isTrue h1 => exact .inl ⟨h1, h⟩
      case isFalse h1 => exact .inr ⟨h1, h⟩

theorem stored_of_mem_facets {program : FacetProgram} (h : p.facets program = .ok fs) {f : Facet}
    (hf : f ∈ fs) : f.stored = .ok f := by
  obtain ⟨l, hl⟩ : ∃ l : List Facet, l.mapM Facet.stored = .ok fs := by
    obtain ⟨-, -, ⟨-, h⟩ | ⟨-, h⟩⟩ := facets_eq_ok h
    · exact ⟨_, h⟩
    · obtain ⟨found, -, h⟩ := bind_eq_ok.mp h
      exact ⟨found, h⟩
  obtain ⟨g, -, hg⟩ := (mapM_mem hl).2 f hf
  obtain rfl := Facet.stored_eq_ok hg
  exact hg

/-- A facet holds at a point if their product is a word, whatever sets of points were proposed. -/
theorem dotInt_le_of_mem_facets {program : FacetProgram} (h : p.facets program = .ok fs)
    (hlen : ∀ q ∈ p.points, q.length = p.ambient) {f : Facet} (hf : f ∈ fs) {q : List ℤ}
    (hq : q ∈ p.points) (hw : isWord (dotInt f.normal q) = true) :
    dotInt f.normal q ≤ f.offset := by
  obtain ⟨-, -, ⟨h1, h⟩ | ⟨-, h⟩⟩ := facets_eq_ok h
  · obtain rfl := mapM_eq_self (fun _ _ => Facet.stored_eq_ok) h
    exact (supports_of_mem_ends h1 hlen f hf).le q hq
  · obtain ⟨s, -, g, -, hsup⟩ := (facetsThrough_eq_ok h).1 f hf
    exact Facet.dotInt_le_of_supporting hsup hq hw

/-- Facets support the points if their products with them are words, whatever sets of points were
proposed. -/
theorem supports_of_mem_facets {program : FacetProgram} (h : p.facets program = .ok fs)
    (hrange : p.ambient ≠ 1 → ∀ s ∈ program p.ambient p.points, ∀ i ∈ s, i < p.points.length)
    (hlen : ∀ q ∈ p.points, q.length = p.ambient)
    (hword : ∀ f ∈ fs, ∀ q ∈ p.points, isWord (dotInt f.normal q) = true) :
    ∀ f ∈ fs, f.Supports p.ambient p.points := by
  obtain ⟨-, -, ⟨h1, h⟩ | ⟨h1, h⟩⟩ := facets_eq_ok h
  · obtain rfl := mapM_eq_self (fun _ _ => Facet.stored_eq_ok) h
    exact supports_of_mem_ends h1 hlen
  · intro f' hf'
    obtain ⟨s, hs, f, hf, hsup⟩ := (facetsThrough_eq_ok h).1 f' hf'
    exact Facet.supports_of_supporting (pick_length hlen (hrange h1 s hs)) hf hsup
      (hword f' hf')

end Polytope

end Orthant
