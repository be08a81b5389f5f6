import Orthant.Expr.Plain
import Orthant.Expr.Reader
import Orthant.Form.Coefficient

/-! # Polynomials in given variables

A polynomial text with its variables: those that are given, or the names that are left when like
terms have been collected. Coefficients may still hold other names. Terms stand in falling
lexicographic order.
-/

namespace Orthant

/-- Lexicographic order, larger exponents first. -/
def fallingLex {α : Type} [DecidableEq α] [LT α] [DecidableLT α] : List α → List α → Bool
  | [], _ => true
  | _, [] => false
  | a :: as, b :: bs => if a = b then fallingLex as bs else decide (b < a)

structure Polynomial where
  generators : List Form
  /-- Exponents with the coefficient, which is free of the generators. -/
  terms : List (List Nat × Form)

namespace Polynomial

def names (p : Polynomial) : List String := p.generators.map Form.text

def hasRepeats : List String → Bool
  | [] => false
  | s :: ss => ss.contains s || hasRepeats ss

/-! ## Plain expressions -/

def exponentsIn (all names : List String) (a : List Nat) : List Nat :=
  names.map fun s => ((all.zip a).lookup s).getD 0

/-- Whether a monomial has no other names than the variables. -/
def isIn (all names : List String) (a : List Nat) : Bool :=
  (all.zip a).all fun p => p.2 = 0 || names.contains p.1

/-- The rows of a polynomial in the variables, the larger exponents first. -/
def rowsIn (all names : List String) (p : Sparse Rat) : List (List Nat × Rat) :=
  (p.map fun t => (exponentsIn all names t.1, t.2)).mergeSort fun s t =>
    compareFalling s.1 t.1 != .gt

def powerForm (s : String) (k : Nat) : Form :=
  if k = 1 then .name s else .power (.name s) (.ofInt k)

def otherPowers (all names : List String) (a : List Nat) : List Form :=
  ((all.zip a).filter fun p => p.2 != 0 && !names.contains p.1).map fun p => powerForm p.1 p.2

def monomialForm (c : Rat) (powers : List Form) : Form :=
  .ofFactors ((if c = 1 then [] else [.ofRat c]) ++ Form.sortParts powers)

/-- The sum of terms that have the same exponents in the variables, as a polynomial in the other
names. -/
def coefficientForm (all names : List String) (p : Sparse Rat) : Form :=
  let parts := p.map fun t => monomialForm t.2 (otherPowers all names t.1)
  .ofTerms (parts.filter Form.isNumber ++ Form.sortParts (parts.filter fun f => !f.isNumber))

/-- The terms of a polynomial in the variables, when there are other names in it. -/
def mixedTerms (all names : List String) (p : Sparse Rat) : List (List Nat × Form) :=
  let rows := (p.map fun t => exponentsIn all names t.1).eraseDups
  (rows.mergeSort fun a b => compareFalling a b != .gt).map fun a =>
    (a, coefficientForm all names (p.filter fun t => exponentsIn all names t.1 = a))

def plainTerms (all names : List String) (p : Sparse Rat) : List (List Nat × Form) :=
  if p.all fun t => isIn all names t.1 then (rowsIn all names p).map fun t => (t.1, .ofRat t.2)
  else mixedTerms all names p

/-! ## Reading -/

def ofForm (names : List String) (f : Form) : Except Error Polynomial :=
  if hasRepeats names then fail .generators
  else do
    let gens := names.map Form.name
    .ok ⟨gens, ← f.polynomialIn gens⟩

def ofExpr (names : List String) (e : Expr) (f : Form) : Except Error Polynomial :=
  if hasRepeats names then fail .generators
  else
    let all := Expr.distinctNames e.names
    match e.plain? all with
    | some p => .ok ⟨names.map Form.name, plainTerms all names p⟩
    | none => ofForm names f

def toForm (p : Polynomial) : Form := .ofMonomials p.generators p.terms

/-- What is known about the polynomial that is given: its text, and what the caller chose. -/
structure Source where
  text : String
  /-- The generators of a polynomial that was built beforehand; none of them asks for its own. -/
  gens : Option (List String)
  /-- The order of the variables, if it is not the standard one. -/
  order : Option (List String)

def inVariables (names : List String) (read : List String → Except Error Polynomial) :
    Except Error Polynomial :=
  if names.isEmpty then .error .noVariables
  else match read names with
    | .error (.fault .notPolynomial) => .error (.notPolynomialIn names)
    | r => r

def inOwn (f : Form) : Except Error Polynomial := do
  let (gens, ts) ← f.polynomialInOwn
  .ok ⟨gens, ts⟩

/-- The polynomial in one variable with given coefficients, the highest power first. -/
def ofCoefficients (names : List String) (cs : List Form) : Except Error Polynomial :=
  match names with
  | [s] =>
    let ts := ((Form.unify cs).reverse.zipIdx.map fun c => ([c.2], c.1)).reverse
    .ok ⟨[.name s], ts.filter fun t => !t.2.isZero⟩
  | names => fail (if hasRepeats names then .generators else .notPolynomial)

/-- The polynomial that several expressions side by side list the coefficients of. -/
def readItems (s : Source) (cs : List Form) : Except Error Polynomial :=
  match s.gens with
  | none => inVariables (s.order.getD (Expr.distinctNames (Form.namesOf cs))) fun names =>
      ofCoefficients names cs
  | some gens => do
    let p ← if gens.isEmpty then fail .generatorsNeeded else ofCoefficients gens cs
    match s.order with
    | none => .ok p
    | some order => inVariables order fun names => ofForm names p.toForm

def read (s : Source) : Except Error Polynomial :=
  match Expr.read? s.text with
  | none => fail .malformed
  | some (.items as) => do readItems s (← Expr.formsOf as)
  | some e => do
    let f ← e.toForm
    match s.gens with
    | none => inVariables (s.order.getD (Expr.distinctNames f.names)) fun names => ofExpr names e f
    | some gens =>
      let p ← if gens.isEmpty then inOwn f else ofExpr gens e f
      match s.order with
      | none => .ok p
      | some order => inVariables order fun names => ofForm names p.toForm

end Polynomial

end Orthant
