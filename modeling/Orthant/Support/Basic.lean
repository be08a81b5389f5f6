import Orthant.Lattice.Grid
import Orthant.Support.Polynomial

/-! # Signed supports

The exponents of a polynomial with their real coefficients. A term is negative when its coefficient
is; the positive part and the negative part keep the order of the terms. A coefficient whose sign
cannot be told is undefined, and `Support.checked` refuses it.
-/

namespace Orthant

/-- Exact numbers as forms without names. Numbers stand for themselves; among more exact numbers than
the rationals other forms have a value too. -/
class Symbolic (K : Type) [Exact K] where
  /-- The number that a form is, if it is a real one. -/
  number? : Form → Option (Number K)
  toForm : Number K → Form
  number?_exact : ∀ q : Rat, number? (.number (.exact q)) = some (.exact (Exact.ofRat q))

instance : Symbolic Rat := ⟨Form.number?, Form.number, fun _ => rfl⟩

structure Support (K : Type := Rat) where
  names : List String
  exponents : List (List Int)
  coefficients : List (Number K)
  /-- Whether every variable is a name, so that one can differentiate by it. -/
  isSmooth : Bool := true

namespace Support

variable {K : Type} [Exact K]

def dimension (s : Support K) : Nat := s.names.length

def terms (s : Support K) : List (List Int × Number K) := s.exponents.zip s.coefficients

def negativeMask (s : Support K) : List Bool := s.coefficients.map Number.isNegative

def positiveTerms (s : Support K) : List (List Int × Number K) :=
  s.terms.filter fun t => !t.2.isNegative

def negativeTerms (s : Support K) : List (List Int × Number K) :=
  s.terms.filter fun t => t.2.isNegative

def positiveExponents (s : Support K) : List (List Int) := s.positiveTerms.map Prod.fst

def negativeExponents (s : Support K) : List (List Int) := s.negativeTerms.map Prod.fst

def positiveCoefficients (s : Support K) : List (Number K) := s.positiveTerms.map Prod.snd

def negativeCoefficients (s : Support K) : List (Number K) := s.negativeTerms.map Prod.snd

/-- Adds a power of a name to a product sorted by name. -/
def insertPower (p : String × Int) : List (String × Int) → List (String × Int)
  | [] => [p]
  | q :: qs =>
    if p.1 < q.1 then p :: q :: qs
    else if p.1 = q.1 then (q.1, p.2 + q.2) :: qs
    else q :: insertPower p qs

/-- The powers of the variables in a monomial, sorted by name. Exponents beyond the variables and
variables beyond the exponents do not count. -/
def monomial (s : Support K) (exponent : List Int) : List (String × Int) :=
  ((s.names.zip exponent).foldl (fun acc p => insertPower p acc) []).filter fun p => p.2 != 0

/-- The monomial of exponents given as values, which are cut off toward zero. -/
def monomialOf (s : Support K) (given : List Value) : Except Error (List (String × Int)) := do
  .ok (s.monomial (← (given.take s.dimension).mapM Value.toInteger))

/-- The support itself, if each coefficient has a sign and each exponent a coefficient. A support
without any coefficient has no terms. -/
def checked (s : Support K) : Except Error (Support K) :=
  if s.coefficients.any Number.isUndefined then fail .kind
  else if !s.coefficients.isEmpty && s.coefficients.length != s.exponents.length then fail .index
  else .ok s

def realCoefficient [Symbolic K] (t : List Nat × Form) : Except Error (Number K) :=
  let refused : Except Error (Number K) :=
    .error (.coefficientNotReal t.2.text (t.1.map Int.ofNat))
  match Symbolic.number? t.2 with
  | none | some (.infinite _) => refused
  | some c => .ok c

def ofPolynomial [Symbolic K] (p : Polynomial) : Except Error (Support K) :=
  if p.terms.isEmpty then .error .zeroPolynomial
  else do
    let cs ← p.terms.mapM realCoefficient
    let exps ← p.terms.mapM fun t => (t.1.map Int.ofNat).mapM toWord
    .ok ⟨p.names, exps, cs, p.generators.all Form.isName⟩

def read [Symbolic K] (s : Polynomial.Source) : Except Error (Support K) := do
  ofPolynomial (← Polynomial.read s)

/-- The number that a value stands for as a coefficient: a text is read as an expression, and what
is no number has no sign. -/
def coefficientOf (v : Value) : Except Error Number :=
  match v with
  | .real x => .ok (x.toNumber.getD .undefined)
  | .text s => do .ok ((← Expr.formOf s).number?.getD .undefined)
  | _ => .ok .undefined

def ofTerms (names : List String) (exponents : Value) (coefficients : List Value) :
    Except Error Support := do
  let rows ← (← exponents.toGrid).reshape names.length
  .ok ⟨names, rows, ← coefficients.mapM coefficientOf, true⟩

end Support

end Orthant
