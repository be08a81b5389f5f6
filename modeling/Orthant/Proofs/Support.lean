import Mathlib
import Orthant.Proofs.Lattice.Word
import Orthant.Proofs.Number.Exact
import Orthant.Support.Basic

/-! # Terms of a support

What a support that is checked looks like, which of its exponents the signed parts take, and what the
support of a polynomial holds.
-/

namespace Orthant

namespace Support

variable {K : Type} {s s' : Support K}

/-- Every exponent has one entry for each variable, a word. -/
structure IsLattice (s : Support K) : Prop where
  length : ∀ a ∈ s.exponents, a.length = s.dimension
  word : ∀ a ∈ s.exponents, ∀ x ∈ a, isWord x

theorem checked_eq_ok (h : s.checked = .ok s') : s' = s := by
  rw [checked] at h
  split at h
  · cases h
  · split at h
    · cases h
    · exact (Except.ok.inj h).symm

theorem checked_of_defined (hcount : s.coefficients.length = s.exponents.length)
    (hdefined : ∀ c ∈ s.coefficients, c ≠ .undefined) : s.checked = .ok s := by
  rw [checked, if_neg, if_neg (by simp [hcount])]
  intro hany
  obtain ⟨c, hc, hundefined⟩ := List.any_eq_true.mp hany
  exact hdefined c hc (Number.isUndefined_iff.mp hundefined)

variable [Exact K]

theorem mem_exponents_of_mem_positive {a : List ℤ} (h : a ∈ s.positiveExponents) :
    a ∈ s.exponents := by
  obtain ⟨t, ht, rfl⟩ := List.mem_map.mp h
  exact (List.of_mem_zip (List.mem_of_mem_filter ht)).1

theorem mem_exponents_of_mem_negative {a : List ℤ} (h : a ∈ s.negativeExponents) :
    a ∈ s.exponents := by
  obtain ⟨t, ht, rfl⟩ := List.mem_map.mp h
  exact (List.of_mem_zip (List.mem_of_mem_filter ht)).1

theorem positive_zip (s : Support K) :
    s.positiveExponents.zip s.positiveCoefficients = s.positiveTerms := by
  rw [positiveExponents, positiveCoefficients, List.zip_map']
  simp

theorem negative_zip (s : Support K) :
    s.negativeExponents.zip s.negativeCoefficients = s.negativeTerms := by
  rw [negativeExponents, negativeCoefficients, List.zip_map']
  simp

theorem exact_of_mem_coefficients (h : ∀ c ∈ s.coefficients, c.isExact) :
    (∀ c ∈ s.positiveCoefficients, c.isExact) ∧ ∀ c ∈ s.negativeCoefficients, c.isExact := by
  constructor
  all_goals
    intro c hc
    obtain ⟨t, ht, rfl⟩ := List.mem_map.mp hc
    exact h _ (List.of_mem_zip (List.mem_of_mem_filter ht)).2

end Support

/-! ## The support of a polynomial -/

variable {K : Type} [Exact K] [Symbolic K]

variable (K) in
/-- A polynomial in names, each term with an exponent for each name and an exact coefficient other
than zero. -/
structure Polynomial.IsExact [Zero K] (q : Polynomial) : Prop where
  names : ∀ g ∈ q.generators, g.isName
  length : ∀ t ∈ q.terms, t.1.length = q.generators.length
  coefficient : ∀ t ∈ q.terms, ∃ r : K, r ≠ 0 ∧ Symbolic.number? t.2 = some (.exact r)

theorem Polynomial.IsExact.mapM_realCoefficient [Zero K] {q : Polynomial} (hq : q.IsExact K) :
    q.terms.mapM Support.realCoefficient =
      .ok (q.terms.map fun t => (Symbolic.number? (K := K) t.2).getD .zero) :=
  mapM_eq_ok fun t ht => by
    obtain ⟨r, -, hr⟩ := hq.coefficient t ht
    rw [Support.realCoefficient, hr]
    rfl

namespace Support

variable {q : Polynomial} {s : Support K}

theorem ofPolynomial_eq_ok [Zero K] (hq : q.IsExact K) (h : ofPolynomial q = .ok s) :
    s.names = q.names ∧ s.isSmooth = true ∧
      s.exponents = q.terms.map (fun t => t.1.map Int.ofNat) ∧
      s.coefficients = q.terms.map (fun t => (Symbolic.number? t.2).getD .zero) ∧
      ∀ a ∈ s.exponents, ∀ x ∈ a, isWord x = true := by
  rw [ofPolynomial] at h
  split at h
  · cases h
  obtain ⟨cs, hcs, h⟩ := bind_eq_ok.mp h
  obtain ⟨exps, hexps, h⟩ := bind_eq_ok.mp h
  obtain rfl := Except.ok.inj h
  have hself : ∀ (t : List ℕ × Form) e, (t.1.map Int.ofNat).mapM toWord = .ok e →
      e = t.1.map Int.ofNat := fun t e => mapM_eq_self fun _ _ => toWord_eq_ok
  refine ⟨rfl, ?_, eq_map_of_mapM hself hexps, ?_, ?_⟩
  · simpa using hq.names
  · exact Except.ok.inj (hcs.symm.trans hq.mapM_realCoefficient)
  · intro a ha
    obtain ⟨t, -, hword⟩ := (mapM_mem hexps).2 a ha
    rw [← hself t a hword] at hword
    exact mapM_toWord_iff.mp hword

theorem ofPolynomial_of_words [Zero K] (hq : q.IsExact K) (hne : q.terms ≠ [])
    (hword : ∀ t ∈ q.terms, ∀ k ∈ t.1.map Int.ofNat, isWord k = true) :
    ofPolynomial q = .ok ⟨q.names, q.terms.map fun t => t.1.map Int.ofNat,
      q.terms.map fun t => (Symbolic.number? (K := K) t.2).getD .zero, true⟩ := by
  have hexps : q.terms.mapM (fun t => (t.1.map Int.ofNat).mapM toWord) =
      .ok (q.terms.map fun t => t.1.map Int.ofNat) :=
    mapM_eq_ok fun t ht => mapM_toWord_iff.mpr (hword t ht)
  have hsmooth : q.generators.all Form.isName = true := by simpa using hq.names
  rw [ofPolynomial, if_neg (by simpa using hne), hq.mapM_realCoefficient]
  refine bind_eq_ok.mpr ⟨_, rfl, bind_eq_ok.mpr ⟨_, hexps, ?_⟩⟩
  rw [hsmooth]

theorem isNumber_of_ofPolynomial {s : Support} (h : ofPolynomial q = .ok s) {t : List ℕ × Form}
    (ht : t ∈ q.terms) : t.2.isNumber = true := by
  rw [ofPolynomial] at h
  split at h
  · cases h
  obtain ⟨cs, hcs, -⟩ := bind_eq_ok.mp h
  obtain ⟨c, -, hc⟩ := (mapM_mem hcs).1 t ht
  rw [realCoefficient] at hc
  cases he : t.2 with
  | number c => rfl
  | _ =>
    rw [he] at hc
    cases hc

end Support

end Orthant
