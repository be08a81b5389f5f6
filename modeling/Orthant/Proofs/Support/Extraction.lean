import Mathlib
import Orthant.Proofs.EquationSystem.Export
import Orthant.Proofs.Support
import Orthant.Proofs.Support.Rows

/-! # Reading keeps the polynomial

A polynomial expression that is read has no names but the variables, and its rows are those of the
polynomial that is computed for it.
-/

namespace Orthant

open MvPolynomial

/-! ## Coefficients with names -/

namespace Form

variable {f : Form} {fs : List Form}

theorem isNumber_ofFactors (hf : f ∈ fs) (h : f.isNumber = false) :
    (ofFactors fs).isNumber = false := by
  match fs, hf with
  | [_], hf => rwa [List.mem_singleton.mp hf] at h
  | _ :: _ :: _, _ => rfl

theorem isNumber_ofTerms (hf : f ∈ fs) (h : f.isNumber = false) :
    (ofTerms fs).isNumber = false := by
  match fs, hf with
  | [_], hf => rwa [List.mem_singleton.mp hf] at h
  | _ :: _ :: _, _ => rfl

theorem mem_sortParts : f ∈ sortParts fs ↔ f ∈ fs := (List.mergeSort_perm _ _).mem_iff

end Form

namespace Polynomial

variable {all names : List String} {p : Sparse ℚ} {t : List ℕ × ℚ}

theorem isNumber_powerForm (s : String) (k : ℕ) : (powerForm s k).isNumber = false := by
  rw [powerForm]
  split <;> rfl

theorem isNumber_coefficientForm (ht : t ∈ p) (h : isIn all names t.1 = false) :
    (coefficientForm all names p).isNumber = false := by
  obtain ⟨q, hq, hother⟩ := List.all_eq_false.mp h
  have hpower : powerForm q.1 q.2 ∈ otherPowers all names t.1 := by
    refine List.mem_map.mpr ⟨q, List.mem_filter.mpr ⟨hq, ?_⟩, rfl⟩
    simpa using hother
  have hmonomial : (monomialForm t.2 (otherPowers all names t.1)).isNumber = false :=
    Form.isNumber_ofFactors (List.mem_append_right _ (Form.mem_sortParts.mpr hpower))
      (isNumber_powerForm _ _)
  refine Form.isNumber_ofTerms (List.mem_append_right _ (Form.mem_sortParts.mpr ?_)) hmonomial
  exact List.mem_filter.mpr ⟨List.mem_map_of_mem ht, by rw [hmonomial]; rfl⟩

theorem exists_of_not_isIn (ht : t ∈ p) (h : isIn all names t.1 = false) :
    ∃ r ∈ plainTerms all names p, r.2.isNumber = false := by
  have hall : (p.all fun t => isIn all names t.1) = false :=
    List.all_eq_false.mpr ⟨t, ht, by simp [h]⟩
  have hrow : exponentsIn all names t.1 ∈ ((p.map fun t => exponentsIn all names t.1).eraseDups.mergeSort
      fun a b => compareFalling a b != .gt) := by
    rw [(List.mergeSort_perm _ _).mem_iff, List.mem_eraseDups]
    exact List.mem_map_of_mem ht
  rw [plainTerms, if_neg (by rw [hall]; decide)]
  refine ⟨_, List.mem_map_of_mem hrow, isNumber_coefficientForm ?_ h⟩
  exact List.mem_filter.mpr ⟨ht, decide_eq_true rfl⟩

/-! ## Reading -/

theorem inVariables_eq_ok {names : List String} {f : List String → Except Error Polynomial}
    {q : Polynomial} : inVariables names f = .ok q ↔ names ≠ [] ∧ f names = .ok q := by
  rw [inVariables]
  split
  case isTrue h => simp [List.isEmpty_iff.mp h]
  case isFalse h =>
    rw [List.isEmpty_iff] at h
    split
    case h_1 he => simp [he]
    case h_2 => simp [h]

theorem read_eq_ok_iff {src : Source} {e : Expr} {p : Sparse ℚ} {q : Polynomial}
    (hgens : src.gens = none) (he : Expr.read? src.text = some e) (hpoly : e.IsPolynomial)
    (hp : e.plain? (Expr.distinctNames e.names) = some p) : read src = .ok q ↔
      ∃ f names, e.toForm = .ok f ∧ src.order.getD (Expr.distinctNames f.names) = names ∧
        names ≠ [] ∧ names.Nodup ∧
        ⟨names.map Form.name, plainTerms (Expr.distinctNames e.names) names p⟩ = q := by
  have hread : read src = e.toForm.bind fun f =>
      inVariables (src.order.getD (Expr.distinctNames f.names)) fun names => ofExpr names e f := by
    rw [read, he, hgens]
    cases hpoly <;> rfl
  have hexpr : ∀ names f, ofExpr names e f = .ok q ↔ names.Nodup ∧
      ⟨names.map Form.name, plainTerms (Expr.distinctNames e.names) names p⟩ = q := by
    intro names f
    rw [ofExpr]
    split
    case isTrue h => simp [hasRepeats_iff.mp h, fail]
    case isFalse h =>
      rw [hasRepeats_iff, not_not] at h
      simp [hp, h]
  simp only [hread, bind_eq_ok, inVariables_eq_ok, hexpr]
  constructor
  · rintro ⟨f, hf, hne, hn, hq⟩
    exact ⟨f, _, hf, rfl, hne, hn, hq⟩
  · rintro ⟨f, _, hf, rfl, hne, hn, hq⟩
    exact ⟨f, hf, hne, hn, hq⟩

theorem map_text_name (names : List String) : (names.map Form.name).map Form.text = names := by
  rw [List.map_map]
  exact List.map_id' names

/-- The terms of a polynomial that has no other names than the variables. -/
theorem Covers.isExact {all names : List String} {p : Sparse ℚ} (h : Covers all names p) :
    Polynomial.IsExact ℚ ⟨names.map Form.name, (rowsIn all names p).map fun r => (r.1, .ofRat r.2)⟩ := by
  refine ⟨fun g hg => ?_, fun t ht => ?_, fun t ht => ?_⟩
  · obtain ⟨s, -, rfl⟩ := List.mem_map.mp hg
    rfl
  · obtain ⟨r, hr, rfl⟩ := List.mem_map.mp ht
    obtain ⟨u, -, rfl⟩ := exists_of_mem_rowsIn hr
    simp
  · obtain ⟨r, hr, rfl⟩ := List.mem_map.mp ht
    obtain ⟨u, hu, rfl⟩ := exists_of_mem_rowsIn hr
    exact ⟨u.2, h.normal.nonzero u hu, rfl⟩

end Polynomial

namespace Support

def ofRows (names : List String) (rows : List (List ℕ × ℚ)) : Support :=
  ⟨names, rows.map fun r => r.1.map Int.ofNat, rows.map fun r => .exact r.2, true⟩

section Rows

variable {all names : List String} {p : Sparse ℚ} {s : Support}

theorem ofPolynomial_of_rows {rows : List (List ℕ × ℚ)}
    (hq : Polynomial.IsExact ℚ ⟨names.map Form.name, rows.map fun r => (r.1, .ofRat r.2)⟩)
    (hne : rows ≠ []) (hword : ∀ r ∈ rows, ∀ k ∈ r.1.map Int.ofNat, isWord k = true) :
    ofPolynomial ⟨names.map Form.name, rows.map fun r => (r.1, .ofRat r.2)⟩ =
      .ok (ofRows names rows) := by
  rw [ofPolynomial_of_words hq (by simpa using hne) (List.forall_mem_map.mpr hword)]
  rw [Polynomial.names, Polynomial.map_text_name, List.map_map, List.map_map]
  rfl

/-- A polynomial has a support when it has terms but no names other than the variables, and then its
rows are the terms. -/
theorem ofPolynomial_plainTerms (hall : all.Nodup) (hn : names.Nodup) (hp : p.IsNormal all.length) :
    ofPolynomial ⟨names.map Form.name, Polynomial.plainTerms all names p⟩ = .ok s ↔
      Polynomial.Covers all names p ∧ p ≠ [] ∧
      (∀ r ∈ Polynomial.rowsIn all names p, ∀ k ∈ r.1.map Int.ofNat, isWord k = true) ∧
      ofRows names (Polynomial.rowsIn all names p) = s := by
  by_cases hin : ∀ t ∈ p, Polynomial.isIn all names t.1 = true
  · have hcovers : Polynomial.Covers all names p :=
      ⟨hall, hn, hp, fun t ht => (Polynomial.isIn_iff hall (hp.length t ht)).mp (hin t ht)⟩
    have hq := hcovers.isExact
    rw [Polynomial.plainTerms, if_pos (List.all_eq_true.mpr hin)]
    have hlen := (Polynomial.rowsIn_perm all names p).length_eq
    generalize Polynomial.rowsIn all names p = rows at hq hlen ⊢
    have hnil : p = [] ↔ rows = [] := by
      rw [← List.length_eq_zero_iff, ← List.length_eq_zero_iff, hlen, List.length_map]
    have hofRows := ofPolynomial_of_rows hq
    constructor
    · intro h
      have hne : rows ≠ [] := by
        rintro rfl
        cases h
      obtain ⟨-, -, hexps, -, hword⟩ := ofPolynomial_eq_ok hq h
      have hwords : ∀ r ∈ rows, ∀ k ∈ r.1.map Int.ofNat, isWord k = true := fun r hr =>
        hword _ (by rw [hexps, List.map_map]; exact List.mem_map_of_mem hr)
      exact ⟨hcovers, hnil.not.mpr hne, hwords, Except.ok.inj ((hofRows hne hwords).symm.trans h)⟩
    · rintro ⟨-, hne, hwords, rfl⟩
      exact hofRows (hnil.not.mp hne) hwords
  · push Not at hin
    obtain ⟨t, ht, hout⟩ := hin
    refine iff_of_false (fun h => ?_) fun h => hout ?_
    · obtain ⟨r, hr, hnum⟩ := Polynomial.exists_of_not_isIn ht (by simpa using hout)
      rw [isNumber_of_ofPolynomial h hr] at hnum
      cases hnum
    · exact (Polynomial.isIn_iff hall (hp.length t ht)).mpr (h.1.covers t ht)

end Rows

/-! ## What is read -/

section Read

variable {src : Polynomial.Source} {e : Expr} {s : Support}

theorem read_eq_ok_iff {p : Sparse ℚ} (hgens : src.gens = none)
    (he : Expr.read? src.text = some e) (hpoly : e.IsPolynomial)
    (hp : e.plain? (Expr.distinctNames e.names) = some p)
    (hnormal : p.IsNormal (Expr.distinctNames e.names).length) : read src = .ok s ↔
      ∃ f names, e.toForm = .ok f ∧ src.order.getD (Expr.distinctNames f.names) = names ∧
        names ≠ [] ∧ Polynomial.Covers (Expr.distinctNames e.names) names p ∧ p ≠ [] ∧
        (∀ r ∈ Polynomial.rowsIn (Expr.distinctNames e.names) names p,
          ∀ k ∈ r.1.map Int.ofNat, isWord k = true) ∧
        ofRows names (Polynomial.rowsIn (Expr.distinctNames e.names) names p) = s := by
  have hall := Expr.nodup_distinctNames e.names
  have hread : read src = .ok s ↔ ∃ q, Polynomial.read src = .ok q ∧ ofPolynomial q = .ok s :=
    bind_eq_ok
  simp only [hread, Polynomial.read_eq_ok_iff hgens he hpoly hp]
  constructor
  · rintro ⟨_, ⟨f, names, hf, hnames, hne, hn, rfl⟩, h⟩
    exact ⟨f, names, hf, hnames, hne, (ofPolynomial_plainTerms hall hn hnormal).mp h⟩
  · rintro ⟨f, names, hf, hnames, hne, h⟩
    exact ⟨_, ⟨f, names, hf, hnames, hne, h.1.nodup, rfl⟩,
      (ofPolynomial_plainTerms hall h.1.nodup hnormal).mpr h⟩

end Read

section OfRows

variable {names : List String} {rows : List (List ℕ × ℚ)}

theorem terms_ofRows (names : List String) (rows : List (List ℕ × ℚ)) :
    (ofRows names rows).terms = rows.map fun r => (r.1.map Int.ofNat, .exact r.2) :=
  List.zip_map'

theorem eval_polynomial_ofRows (v : String → ℚ) :
    MvPolynomial.eval v (Equation.polynomial names (ofRows names rows).terms) =
      (rows.map fun r => r.2 * ((names.zip r.1).map fun q => v q.1 ^ q.2).prod).sum := by
  have hmonomial : ∀ a : List ℕ, MvPolynomial.eval v (namedMonomial names (a.map Int.ofNat)) =
      ((names.zip a).map fun q => v q.1 ^ q.2).prod := by
    intro a
    rw [namedMonomial, map_list_prod, List.zip_map_right, List.map_map, List.map_map]
    congr 1
    refine List.map_congr_left fun q _ => ?_
    rw [Function.comp_apply, Function.comp_apply, map_pow, MvPolynomial.eval_X]
    rfl
  rw [Equation.polynomial, Equation.total, terms_ofRows, List.map_map, map_list_sum, List.map_map]
  congr 1
  refine List.map_congr_left fun r _ => ?_
  rw [Function.comp_apply, Function.comp_apply, MvPolynomial.smul_eval, hmonomial]
  rfl

/-- The columns of exponents in the order of other names. -/
def reorder (names names' : List String) (a : List ℤ) : List ℤ :=
  names'.map fun x => ((names.zip a).lookup x).getD 0

theorem reorder_map {names' : List String} (hn : names.Nodup) (hsub : ∀ x ∈ names', x ∈ names)
    (f : String → ℕ) :
    reorder names names' ((names.map f).map Int.ofNat) = (names'.map f).map Int.ofNat := by
  rw [reorder, List.map_map, List.map_map, Polynomial.zip_map_self]
  refine List.map_congr_left fun x hx => ?_
  have hmem : (x, Int.ofNat (f x)) ∈ names.zip (names.map (Int.ofNat ∘ f)) := by
    rw [Polynomial.zip_map_self]
    exact List.mem_map_of_mem (hsub x hx)
  have hlookup := EquationSystem.lookup_zip_of_mem hn hmem
  rw [Polynomial.zip_map_self] at hlookup
  rw [hlookup]
  rfl

theorem terms_ofRows_perm {all : List String} {p : Sparse ℚ} {names' : List String}
    (hn : names.Nodup) (hsub : ∀ x ∈ names', x ∈ names) :
    (ofRows names' (Polynomial.rowsIn all names' p)).terms.Perm
      ((ofRows names (Polynomial.rowsIn all names p)).terms.map fun t =>
        (reorder names names' t.1, t.2)) := by
  rw [terms_ofRows, terms_ofRows, List.map_map]
  refine ((Polynomial.rowsIn_perm all names' p).map _).trans
    (.trans (.of_eq ?_) ((Polynomial.rowsIn_perm all names p).map _).symm)
  rw [List.map_map, List.map_map]
  refine List.map_congr_left fun t _ => ?_
  simp only [Function.comp_apply, reorder_map hn hsub]

end OfRows

section Read

variable {src : Polynomial.Source} {e : Expr} {s : Support}

theorem read_of_perm {p : Sparse ℚ} {f : Form} {names names' : List String} (hgens : src.gens = none)
    (he : Expr.read? src.text = some e) (hpoly : e.IsPolynomial)
    (hp : e.plain? (Expr.distinctNames e.names) = some p) (hf : e.toForm = .ok f)
    (hne : names ≠ []) (hcovers : Polynomial.Covers (Expr.distinctNames e.names) names p)
    (hpne : p ≠ []) (hwords : ∀ r ∈ Polynomial.rowsIn (Expr.distinctNames e.names) names p,
      ∀ k ∈ r.1.map Int.ofNat, isWord k = true) (hperm : names'.Perm names) :
    read { src with order := some names' } =
      .ok (ofRows names' (Polynomial.rowsIn (Expr.distinctNames e.names) names' p)) := by
  have hmem : ∀ x, x ∈ names' ↔ x ∈ names := fun x => hperm.mem_iff
  have hcovers' : Polynomial.Covers (Expr.distinctNames e.names) names' p :=
    ⟨hcovers.all_nodup, hperm.nodup_iff.mpr hcovers.nodup, hcovers.normal,
      fun t ht x hx => hcovers.covers t ht x ((hmem x).not.mp hx)⟩
  have hgens' : { src with order := some names' }.gens = none := hgens
  refine (read_eq_ok_iff hgens' he hpoly hp hcovers.normal).mpr
    ⟨f, names', hf, rfl, fun h => hne ?_, hcovers', hpne, fun r hr k hk => ?_, rfl⟩
  · exact List.perm_nil.mp (h ▸ hperm.symm)
  · obtain ⟨t, ht, rfl⟩ := Polynomial.exists_of_mem_rowsIn hr
    have hterm : (names.map (Polynomial.exponentOf (Expr.distinctNames e.names) t.1), t.2) ∈
        Polynomial.rowsIn (Expr.distinctNames e.names) names p :=
      (Polynomial.rowsIn_perm _ names p).mem_iff.mpr (List.mem_map.mpr ⟨t, ht, rfl⟩)
    refine hwords _ hterm k ?_
    rw [List.map_map, List.mem_map] at hk ⊢
    obtain ⟨x, hx, hk⟩ := hk
    exact ⟨x, (hmem x).mp hx, hk⟩

/-- Reading a polynomial expression keeps the polynomial. The rows fall, no coefficient is zero, and the
signed parts are the rows with nonnegative and with negative coefficients in their order. In another
order of the variables the rows are the same with their columns exchanged. -/
theorem polynomial_of_read (hgens : src.gens = none) (he : Expr.read? src.text = some e)
    (hpoly : e.IsPolynomial) (hread : read src = .ok s) :
    (∀ v : String → ℚ,
      MvPolynomial.eval v (Equation.polynomial s.names s.terms) = e.valueAt v) ∧
    s.names.Nodup ∧ s.coefficients.length = s.exponents.length ∧
    (∀ a ∈ s.exponents, a.length = s.dimension ∧ ∀ k ∈ a, 0 ≤ k) ∧
    s.exponents.Pairwise (· > ·) ∧
    (∀ c ∈ s.coefficients, c.isExact ∧ c.value ≠ 0) ∧
    s.positiveExponents.zip s.positiveCoefficients =
      s.terms.filter (fun t => decide (0 ≤ t.2.value)) ∧
    s.negativeExponents.zip s.negativeCoefficients =
      s.terms.filter (fun t => decide (t.2.value < 0)) ∧
    ∀ names', names'.Perm s.names → ∃ s', read { src with order := some names' } = .ok s' ∧
      s'.names = names' ∧
      s'.terms.Perm (s.terms.map fun t => (reorder s.names names' t.1, t.2)) := by
  obtain ⟨p, hp, hnormal, hvalue⟩ := hpoly.isPlain fun s => Expr.mem_distinctNames.mpr
  obtain ⟨f, names, hf, hnames, hne, hcovers, hpne, hwords, rfl⟩ :=
    (read_eq_ok_iff hgens he hpoly hp hnormal).mp hread
  set all := Expr.distinctNames e.names with hall
  set rows := Polynomial.rowsIn all names p with hrows
  have hrow : ∀ r ∈ rows, r.1.length = names.length ∧ r.2 ≠ 0 := by
    intro r hr
    obtain ⟨t, ht, rfl⟩ := Polynomial.exists_of_mem_rowsIn hr
    exact ⟨List.length_map _, hnormal.nonzero t ht⟩
  have hnegative : ∀ t ∈ (ofRows names rows).terms,
      t.2.isNegative = true ↔ t.2.value < 0 := by
    intro t ht
    rw [terms_ofRows] at ht
    obtain ⟨r, -, rfl⟩ := List.mem_map.mp ht
    exact decide_eq_true_iff
  refine ⟨fun v => ?value, hcovers.nodup, ?count, fun a ha => ?row, ?falling, fun c hc => ?nonzero,
    ?positive, ?negative, fun names' hperm => ?permuted⟩
  case value =>
    exact (eval_polynomial_ofRows v).trans ((hcovers.eval_rowsIn v).trans (hvalue v))
  case count => simp [ofRows]
  case row =>
    obtain ⟨r, hr, rfl⟩ := List.mem_map.mp ha
    refine ⟨(List.length_map _).trans (hrow r hr).1, fun k hk => ?_⟩
    obtain ⟨j, -, rfl⟩ := List.mem_map.mp hk
    exact Int.natCast_nonneg j
  case falling =>
    exact List.pairwise_map.mpr (hcovers.pairwise_rowsIn.imp fun hlt => map_natCast_lt hlt)
  case nonzero =>
    obtain ⟨r, hr, rfl⟩ := List.mem_map.mp hc
    exact ⟨rfl, (hrow r hr).2⟩
  case positive =>
    rw [positive_zip]
    refine List.filter_congr fun t ht => ?_
    rw [Bool.eq_iff_iff, Bool.not_eq_true', ← Bool.not_eq_true, hnegative t ht, not_lt,
      decide_eq_true_iff]
  case negative =>
    rw [negative_zip]
    refine List.filter_congr fun t ht => ?_
    rw [Bool.eq_iff_iff, hnegative t ht, decide_eq_true_iff]
  case permuted =>
    exact ⟨_, read_of_perm hgens he hpoly hp hf hne hcovers hpne hwords hperm, rfl,
      terms_ofRows_perm hcovers.nodup fun x => hperm.mem_iff.mp⟩

end Read

def slopedSource : Polynomial.Source := ⟨"3/2-7*x", none, some ["x", "y"]⟩

def slopedExpr : Expr :=
  .minus (.divide (.number (.exact 3)) (.number (.exact 2)))
    (.times (.number (.exact 7)) (.name "x"))

theorem read?_sloped : Expr.read? slopedSource.text = some slopedExpr := by
  have hscan : Token.scan "3/2-7*x" = some [.number (.exact 3), .slash, .number (.exact 2), .minus,
      .number (.exact 7), .star, .word "x"] := by decide +kernel
  rw [slopedSource, Expr.read?, hscan]
  rfl

theorem isPolynomial_sloped : slopedExpr.IsPolynomial :=
  .minus (.divide (.number 3) (by norm_num)) (.times (.number 7) (.name "x"))

def slopedTerms : Sparse ℚ := [([1], -7), ([0], 3 / 2)]

theorem covers_sloped : Polynomial.Covers ["x"] ["x", "y"] slopedTerms := by
  have hnormal : slopedTerms.IsNormal 1 := ⟨by decide, by decide, by decide_cbv⟩
  refine ⟨by decide, by decide, hnormal, fun t ht => ?_⟩
  have hin : ∀ t ∈ slopedTerms, Polynomial.isIn ["x"] ["x", "y"] t.1 = true := by decide
  exact (Polynomial.isIn_iff (by decide) (hnormal.length t ht)).mp (hin t ht)

theorem rowsIn_sloped : Polynomial.rowsIn ["x"] ["x", "y"] slopedTerms =
    [([1, 0], -7), ([0, 0], 3 / 2)] :=
  List.mergeSort_of_pairwise (by decide)

theorem read_sloped : read slopedSource =
    .ok (⟨["x", "y"], [[1, 0], [0, 0]], [.exact (-7), .exact (3 / 2)], true⟩ : Support) := by
  have hplain : slopedExpr.plain? (Expr.distinctNames slopedExpr.names) = some slopedTerms := by
    decide_cbv
  obtain ⟨f, hf⟩ : ∃ f, slopedExpr.toForm = .ok f := by
    have hform : slopedExpr.toForm.toBool = true := by decide_cbv
    cases h : slopedExpr.toForm with
    | error => simp [h, Except.toBool] at hform
    | ok f => exact ⟨f, rfl⟩
  have hall : Expr.distinctNames slopedExpr.names = ["x"] := by decide
  refine (read_eq_ok_iff rfl read?_sloped isPolynomial_sloped hplain (hall ▸ covers_sloped.normal)).mpr
    ⟨f, ["x", "y"], hf, rfl, by decide, hall ▸ covers_sloped, by decide, ?_⟩
  rw [hall, rowsIn_sloped]
  exact ⟨by decide, rfl⟩

theorem polynomial_of_read_sloped :
    slopedSource.gens = none ∧ Expr.read? slopedSource.text = some slopedExpr ∧
    slopedExpr.IsPolynomial ∧ ∃ s : Support, read slopedSource = .ok s ∧
    (∀ v : String → ℚ,
      MvPolynomial.eval v (Equation.polynomial s.names s.terms) = 3 / 2 - 7 * v "x") ∧
    ∃ s', read { slopedSource with order := some ["y", "x"] } = .ok s' ∧
      s'.terms.Perm ([([0, 1], .exact (-7)), ([0, 0], .exact (3 / 2))] : Equation) := by
  obtain ⟨hvalue, -, -, -, -, -, -, -, hperm⟩ :=
    polynomial_of_read rfl read?_sloped isPolynomial_sloped read_sloped
  obtain ⟨s', hread', -, hterms⟩ := hperm ["y", "x"] (by decide)
  exact ⟨rfl, read?_sloped, isPolynomial_sloped, _, read_sloped, hvalue, s', hread', hterms⟩

end Support

end Orthant
