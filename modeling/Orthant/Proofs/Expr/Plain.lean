import Mathlib
import Orthant.Proofs.EquationSystem.Total
import Orthant.Proofs.Sparse.Arithmetic

/-! # Polynomial expressions

Expressions in rationals, names, sums, products and natural powers are plain: the polynomial that is
computed for them is normal and has their values.
-/

namespace Orthant

theorem Number.ratPow_natCast (q : ℚ) (n : ℕ) : ratPow q n = q ^ n := by
  change mkRat (q.num ^ n) (q.den ^ n) = q ^ n
  rw [Rat.mkRat_eq_div]
  push_cast
  rw [← div_pow, Rat.num_div_den]

namespace Expr

/-- Sums, differences, products, quotients by rationals and natural powers of rationals and names. -/
inductive IsPolynomial : Expr → Prop
  | number (q : ℚ) : IsPolynomial (.number (.exact q))
  | name (s : String) : IsPolynomial (.name s)
  | negate {a : Expr} : IsPolynomial a → IsPolynomial (.negate a)
  | plus {a b : Expr} : IsPolynomial a → IsPolynomial b → IsPolynomial (.plus a b)
  | minus {a b : Expr} : IsPolynomial a → IsPolynomial b → IsPolynomial (.minus a b)
  | times {a b : Expr} : IsPolynomial a → IsPolynomial b → IsPolynomial (.times a b)
  | divide {a : Expr} {q : ℚ} : IsPolynomial a → q ≠ 0 →
      IsPolynomial (.divide a (.number (.exact q)))
  | power {a : Expr} (k : ℕ) : IsPolynomial a → IsPolynomial (.power a (.number (.exact k)))

/-- The value of a polynomial expression at values of its names. -/
def valueAt (v : String → ℚ) : Expr → ℚ
  | number c => c.value
  | name s => v s
  | negate a => -valueAt v a
  | plus a b => valueAt v a + valueAt v b
  | minus a b => valueAt v a - valueAt v b
  | times a b => valueAt v a * valueAt v b
  | divide a b => valueAt v a / valueAt v b
  | power a b => valueAt v a ^ (valueAt v b).num.toNat
  | _ => 0

/-! ## Names in order -/

theorem mem_insertName {s t : String} {names : List String} :
    t ∈ insertName s names ↔ t = s ∨ t ∈ names := by
  induction names with
  | nil => simp [insertName]
  | cons u names ih =>
    rw [insertName]
    split
    case isTrue => simp
    case isFalse =>
      split
      case isTrue he => simp [he]
      case isFalse => simp [ih, or_left_comm]

theorem mem_distinctNames {s : String} {names : List String} :
    s ∈ distinctNames names ↔ s ∈ names := by
  induction names with
  | nil => simp [distinctNames]
  | cons t names ih => rw [distinctNames, List.foldr_cons, mem_insertName, List.mem_cons, ← ih]; rfl

theorem pairwise_insertName {s : String} {names : List String} (h : names.Pairwise (· < ·)) :
    (insertName s names).Pairwise (· < ·) := by
  induction names with
  | nil => exact List.pairwise_singleton _ _
  | cons u names ih =>
    obtain ⟨hu, hrest⟩ := List.pairwise_cons.mp h
    rw [insertName]
    split
    case isTrue hlt =>
      exact List.pairwise_cons.mpr ⟨List.forall_mem_cons.mpr ⟨hlt, fun t ht => hlt.trans (hu t ht)⟩, h⟩
    case isFalse hle =>
      split
      case isTrue => exact h
      case isFalse hne =>
        have hlt : u < s := lt_of_le_of_ne (not_lt.mp hle) (Ne.symm hne)
        refine List.pairwise_cons.mpr ⟨fun t ht => ?_, ih hrest⟩
        rcases mem_insertName.mp ht with rfl | ht
        · exact hlt
        · exact hu t ht

theorem nodup_distinctNames (names : List String) : (distinctNames names).Nodup := by
  have hpairwise : (distinctNames names).Pairwise (· < ·) := by
    induction names with
    | nil => exact .nil
    | cons s names ih => exact pairwise_insertName ih
  exact hpairwise.imp ne_of_lt

theorem placeOf_lt {names : List String} {s : String} (hs : s ∈ names) :
    placeOf names s < names.length :=
  List.findIdx_lt_length_of_exists ⟨s, hs, by simp⟩

theorem getElem_placeOf {names : List String} {s : String} (hs : s ∈ names) :
    names.get ⟨placeOf names s, placeOf_lt hs⟩ = s :=
  of_decide_eq_true (List.findIdx_getElem (w := placeOf_lt hs))

/-! ## Plain expressions -/

section Plain

variable {all : List String}

/-- The polynomial in names that is computed for an expression is normal and has its values. -/
def IsPlain (all : List String) (e : Expr) : Prop :=
  ∃ p, e.plain? all = some p ∧ p.IsNormal all.length ∧
    ∀ v : String → ℚ, Sparse.eval (all.map v) p = e.valueAt v

theorem constant?_constant (n : ℕ) (q : ℚ) :
    Sparse.constant? .rational (Sparse.constant .rational n q) = some q := by
  rw [Sparse.constant]
  split
  case isTrue h => exact congrArg some (of_decide_eq_true h).symm
  case isFalse => simp [Sparse.constant?]

theorem plainPower?_natCast {n : ℕ} {p : Sparse ℚ} (hp : p.IsNormal n) (k : ℕ) :
    ∃ q, plainPower? n p k = some q ∧ q.IsNormal n ∧
      ∀ u, Sparse.eval u q = Sparse.eval u p ^ k := by
  match p, hp with
  | [], hp => exact ⟨_, rfl, hp.pow k, fun u => Sparse.eval_pow hp k⟩
  | [(a, c)], hp =>
    have hlen : a.length = n := hp.length (a, c) List.mem_cons_self
    have hc : c ≠ 0 := hp.nonzero (a, c) List.mem_cons_self
    refine ⟨_, rfl, .singleton (by simpa using hlen) ?_, fun u => ?_⟩
    · rw [Number.ratPow_natCast]
      exact pow_ne_zero k hc
    · rw [Sparse.eval_cons, Sparse.eval_cons, Sparse.powers_mul, Number.ratPow_natCast,
        Sparse.eval_nil, add_zero, add_zero, mul_pow]
  | s :: t :: p, hp => exact ⟨_, rfl, hp.pow k, fun u => Sparse.eval_pow hp k⟩

theorem IsPolynomial.isPlain {e : Expr} (he : e.IsPolynomial) (hnames : ∀ s ∈ e.names, s ∈ all) :
    e.IsPlain all := by
  induction he with
  | number q => exact ⟨_, rfl, .constant _ q, fun v => Sparse.eval_constant _ _ q⟩
  | name s =>
    have hs : s ∈ all := hnames s (List.mem_singleton_self s)
    refine ⟨_, if_pos (List.contains_iff_mem.mpr hs), .indeterminate _ _, fun v => ?_⟩
    have hlt : placeOf all s < (all.map v).length := by simpa using placeOf_lt hs
    have heval := Sparse.eval_indeterminate hlt
    rw [List.length_map, List.getElem_map] at heval
    exact heval.trans (congrArg v (getElem_placeOf hs))
  | negate _ iha =>
    obtain ⟨p, hp, hnormal, hval⟩ := iha hnames
    refine ⟨p.neg .rational, by rw [plain?, hp]; rfl, hnormal.neg, fun v => ?_⟩
    rw [Sparse.eval_neg, hval, valueAt]
  | plus _ _ iha ihb =>
    obtain ⟨p, hp, hpn, hpv⟩ := iha fun s hs => hnames s (List.mem_append_left _ hs)
    obtain ⟨q, hq, hqn, hqv⟩ := ihb fun s hs => hnames s (List.mem_append_right _ hs)
    refine ⟨.add .rational p q, by rw [plain?, hp, hq]; rfl, hpn.add hqn, fun v => ?_⟩
    rw [Sparse.eval_add, hpv, hqv, valueAt]
  | minus _ _ iha ihb =>
    obtain ⟨p, hp, hpn, hpv⟩ := iha fun s hs => hnames s (List.mem_append_left _ hs)
    obtain ⟨q, hq, hqn, hqv⟩ := ihb fun s hs => hnames s (List.mem_append_right _ hs)
    refine ⟨.add .rational p (.neg .rational q), by rw [plain?, hp, hq]; rfl, hpn.add hqn.neg,
      fun v => ?_⟩
    rw [Sparse.eval_add, Sparse.eval_neg, hpv, hqv, valueAt, sub_eq_add_neg]
  | times _ _ iha ihb =>
    obtain ⟨p, hp, hpn, hpv⟩ := iha fun s hs => hnames s (List.mem_append_left _ hs)
    obtain ⟨q, hq, hqn, hqv⟩ := ihb fun s hs => hnames s (List.mem_append_right _ hs)
    refine ⟨.mul .rational p q, by rw [plain?, hp, hq]; rfl, hpn.mul hqn, fun v => ?_⟩
    rw [Sparse.eval_mul hpn.length hqn.length, hpv, hqv, valueAt]
  | @divide a q _ hq iha =>
    obtain ⟨p, hp, hpn, hpv⟩ := iha fun s hs => hnames s (List.mem_append_left _ hs)
    refine ⟨.scale .rational q⁻¹ p, ?_, hpn.scale (inv_ne_zero hq), fun v => ?_⟩
    · simp [plain?, hp, constant?_constant, hq]
    · rw [Sparse.eval_scale, hpv, valueAt, div_eq_inv_mul]
      rfl
  | @power a k _ iha =>
    obtain ⟨p, hp, hpn, hpv⟩ := iha fun s hs => hnames s (List.mem_append_left _ hs)
    obtain ⟨q, hq, hqn, hqv⟩ := plainPower?_natCast hpn k
    refine ⟨q, ?_, hqn, fun v => ?_⟩
    · simpa [plain?, hp, constant?_constant] using hq
    · rw [hqv, hpv, valueAt]
      simp [valueAt, Number.value]

end Plain

end Expr

end Orthant
