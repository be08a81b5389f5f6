import Orthant.Value
import Orthant.Text.Quoted

/-! # Errors

`Fault` names the ways a basic operation can fail; such a failure has no text of its own. `Error`
lists the causes that the library reports, and `Error.message` holds all of their wording.
-/

namespace Orthant

inductive Fault
  /-- A value of a kind that the operation does not take. -/
  | kind
  /-- A value or a shape that the operation does not take. -/
  | value
  | overflow
  | index
  | zeroDivision
  | singular
  /-- A search found nothing. -/
  | exhausted
  /-- A text that is no expression. -/
  | malformed
  /-- The same generator twice. -/
  | generators
  /-- An expression that brings no generator. -/
  | generatorsNeeded
  /-- An expression that is no polynomial in its generators. -/
  | notPolynomial
  /-- A value without the part that is asked for. -/
  | part
  deriving DecidableEq

inductive Error
  | fault (f : Fault)
  | toleranceNegative (got : Quantity)
  | limitNotPositive (got : Quantity)
  | budgetNotPositive (got : Quantity)
  | ballNotFinite (text : String)
  | emptyRectangle (text : String)
  | verdictAsBool
  | noVariables
  | notPolynomialIn (names : List String)
  | zeroPolynomial
  | coefficientNotReal (coefficient : String) (exponents : List Int)
  | supportNotFull (dim : Int) (ambient : Nat)
  | noNegativeTerm
  | negativeNotInterior (exponent : List Int)
  | noFacets (dim : Int) (ambient : Nat)
  | notSupporting (simplex : List Nat)
  /-- The entries are the texts of the exponent's coordinates. -/
  | notBalanced (entries : List String)
  | positiveNotFull
  | balanceNotPositive
  | homotopyWithoutNegative
  | parameterCount (expected got : Nat)
  | configurationNotFull
  | noGenericHeights
  | notCovered (point : Int)
  | flipNotRegular (wall cells : Nat)
  | limitReached (limit : Quantity)
  | timeExhausted (budget : Quantity)
  | parametersLeft
  | engineMissing
  | engineNotLoaded (text : String)
  | engineFailed (activity text : String)
  | engineReported (text : String)
  | boxNotFinite (text : String)
  /-- Raised by a solver, which names its kind and its text. -/
  | raised (kind text : String)
  deriving DecidableEq

/-- Items between brackets, separated by a comma and a space. -/
def bracketed (items : List String) : String := "[" ++ ", ".intercalate items ++ "]"

/-- Items between parentheses; a single one is followed by a comma. -/
def parenthesized : List String → String
  | [a] => "(" ++ a ++ ",)"
  | items => "(" ++ ", ".intercalate items ++ ")"

namespace Error

def message : Error → Option String
  | fault _ => none
  | toleranceNegative got => some ("tol must be nonnegative, got " ++ got.text)
  | limitNotPositive got => some ("max_triangulations must be positive, got " ++ got.text)
  | budgetNotPositive got => some ("time_budget must be positive or None, got " ++ got.text)
  | ballNotFinite text => some ("not a finite Arb ball: " ++ quoted text)
  | emptyRectangle text => some ("empty interval " ++ text)
  | verdictAsBool => some
      "Copositivity has three outcomes; compare against Copositivity.TRUE, FALSE or UNKNOWN"
  | noVariables => some "polynomial has no variables"
  | notPolynomialIn names => some ("not a polynomial in " ++ parenthesized names)
  | zeroPolynomial => some "zero polynomial has no support"
  | coefficientNotReal c exponents => some ("coefficient " ++ c ++ " of monomial " ++
      parenthesized (exponents.map toString) ++ " is not a real number")
  | supportNotFull dim ambient => some
      ("non-full-dimensional support: Newton polytope has dimension " ++ toString dim ++
        " in R^" ++ toString ambient)
  | noNegativeTerm => some "polynomial must have at least one term with negative coefficient"
  | negativeNotInterior exponent => some
      ("negative term on or outside Newton-polytope interior: exponent " ++
        bracketed (exponent.map toString))
  | noFacets dim ambient => some (toString dim ++ "-dimensional polytope in R^" ++
      toString ambient ++ " has no facet description")
  | notSupporting simplex => some ("qhull facet " ++
      bracketed (simplex.map fun i => "np.int32(" ++ toString i ++ ")") ++
        " is not a supporting hyperplane")
  | notBalanced entries => some ("balance polyhedron has no strictly positive point: " ++
      bracketed entries ++ " is not interior to the positive support")
  | positiveNotFull => some "positive support is not full-dimensional"
  | balanceNotPositive => some "balance polyhedron has no strictly positive point"
  | homotopyWithoutNegative => some "nonseparable homotopy needs at least one negative term"
  | parameterCount expected got => some ("expected " ++ toString expected ++
      " parameter values, got " ++ toString got)
  | configurationNotFull => some "regular triangulations need a full-dimensional point set"
  | noGenericHeights => some "could not find a generic height vector"
  | notCovered point => some ("point " ++ toString point ++
      " is not covered by the triangulation")
  | flipNotRegular wall cells => some ("flip across wall " ++ toString wall ++
      " of a chamber with " ++ toString cells ++ " cells is not regular")
  | limitReached limit => some ("more than " ++ limit.text ++
      " regular triangulations; raise max_triangulations")
  | timeExhausted budget => some ("regular triangulations not exhausted within " ++ budget.text ++
      " s; raise time_budget")
  | parametersLeft => some "certify needs a system without parameters; specialize it first"
  | engineMissing => some "juliacall is not installed; install the 'julia' extra"
  | engineNotLoaded text => some
      ("could not load HomotopyContinuation and Arblib in Julia: " ++ text)
  | engineFailed activity text => some
      ("HomotopyContinuation " ++ activity ++ " failed: " ++ text)
  | engineReported text => some text
  | boxNotFinite text => some ("certified box is not finite: " ++ text)
  | raised _ text => some text

end Error

def fail {α : Type} (f : Fault) : Except Error α := .error (.fault f)

def toDouble (q : Rat) : Except Error Double :=
  match Double.ofRat q with
  | .infinite _ => fail .overflow
  | x => .ok x

namespace Double

/-- The exact value; there is none for `nan` and the infinities. -/
def toRat : Double → Except Error Rat
  | nan => fail .value
  | infinite _ => fail .overflow
  | negZero => .ok 0
  | finite q => .ok q

end Double

namespace Quantity

def toRat : Quantity → Except Error Rat
  | bool b => .ok (if b then 1 else 0)
  | int n => .ok n
  | rational q => .ok q
  | double x => x.toRat

def toDouble : Quantity → Except Error Double
  | double x => .ok x
  | bool b => .ok (if b then .one else .zero)
  | int n => Orthant.toDouble n
  | rational q => Orthant.toDouble q

end Quantity

namespace Value

/-- The exact rational that a value stands for; a text is read as a numeral. -/
def toRat : Value → Except Error Rat
  | real x => x.toRat
  | text s =>
    match readRatio s with
    | .malformed => fail .value
    | .zeroDenominator => fail .zeroDivision
    | .value q => .ok q
  | _ => fail .kind

/-- The ratio that a text says: two numerals with a slash between them, or one numeral. Spaces do
not count. -/
def ratioOfText (s : String) : Except Error Rat :=
  let cs := s.toList.filter (· ≠ ' ')
  match cs.dropWhile (· ≠ '/') with
  | [] =>
    match readRatioBare (stripBlanks cs) with
    | .value q => .ok q
    | _ => fail .kind
  | _ :: below =>
    if below.contains '/' then fail .kind
    else do
      let p ← toRat (text (String.ofList (cs.takeWhile (· ≠ '/'))))
      let q ← toRat (text (String.ofList below))
      if q = 0 then fail .zeroDivision else .ok (p / q)

/-- The entry of a rational vector that a value stands for. A double that is not finite is zero. -/
def toEntry : Value → Except Error Rat
  | real (.double x) => .ok (x.value?.getD 0)
  | real x => x.toRat
  | text s => ratioOfText s
  | _ => fail .kind

/-- The complex number with double parts that a value stands for. -/
def toComplex : Value → Except Error Complex
  | real x => x.toDouble.map fun re => ⟨re, .zero⟩
  | complex z => .ok z
  | text s =>
    match readComplex? s with
    | some (re, im) => .ok ⟨re, im⟩
    | none => fail .value
  | _ => fail .kind

def toDouble : Value → Except Error Double
  | real x => x.toDouble
  | text s =>
    match readDouble? s with
    | some x => .ok x
    | none => fail .value
  | _ => fail .kind

def items : Value → Except Error (List Value)
  | list xs => .ok xs
  | text s => .ok (s.toList.map fun c => text (String.ofList [c]))
  | _ => fail .kind

def toComplexes (v : Value) : Except Error (List Complex) := do (← v.items).mapM toComplex

def toIndex : Value → Except Error Int
  | real (.bool b) => .ok (if b then 1 else 0)
  | real (.int n) => .ok n
  | _ => fail .kind

/-- The integer that a value stands for, cut off toward zero. -/
def toInteger : Value → Except Error Int
  | real x => do
    let q ← x.toRat
    .ok (q.num.tdiv q.den)
  | text s =>
    match readInteger? s with
    | some n => .ok n
    | none => fail .value
  | _ => fail .kind

end Value

end Orthant
