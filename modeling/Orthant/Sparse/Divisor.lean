import Orthant.Number.Gauss
import Orthant.Sparse.Basic

/-! # Common divisors of polynomials

The greatest common divisor of polynomials with complex rational coefficients, one variable at a
time: a polynomial is its content, a polynomial in the other variables, times its primitive part,
and primitive parts have their divisor by pseudo-remainders.
-/

namespace Orthant

def Scalars.gauss : Scalars Gauss := ⟨.zero, .one, .add, .neg, .mul, Gauss.isZero⟩

abbrev GaussPolynomial := Sparse Gauss

namespace GaussPolynomial

def add (p q : GaussPolynomial) : GaussPolynomial := Sparse.add .gauss p q

def mul (p q : GaussPolynomial) : GaussPolynomial := Sparse.mul .gauss p q

def sub (p q : GaussPolynomial) : GaussPolynomial := add p (Sparse.neg .gauss q)

def degree (p : GaussPolynomial) : Nat :=
  match p with
  | (d :: _, _) :: _ => d
  | _ => 0

/-- The coefficient of a power of the first variable, in the other variables. -/
def coefficientAt (p : GaussPolynomial) (d : Nat) : GaussPolynomial :=
  p.filterMap fun t => match t.1 with
    | e :: es => if e = d then some (es, t.2) else none
    | [] => none

def degrees (p : GaussPolynomial) : List Nat :=
  p.foldr (fun t acc => match t.1 with
    | d :: _ => if acc.head? = some d then acc else d :: acc
    | [] => acc) []

/-- A polynomial in the other variables as one in all of them, times a power of the first. -/
def lift (d : Nat) (p : GaussPolynomial) : GaussPolynomial := p.map fun t => (d :: t.1, t.2)

def divideExponents? : List Nat → List Nat → Option (List Nat)
  | [], [] => some []
  | a :: as, b :: bs => if b ≤ a then (divideExponents? as bs).map ((a - b) :: ·) else none
  | _, _ => none

def divide (p q : GaussPolynomial) : Nat → GaussPolynomial
  | 0 => []
  | fuel + 1 =>
    match p, q with
    | (a, c) :: _, (b, d) :: _ =>
      match divideExponents? a b with
      | some e =>
        let t := (e, c.div d)
        t :: divide (sub p (Sparse.mulTerm .gauss t q)) q fuel
      | none => []
    | _, _ => []

def termBound (p : GaussPolynomial) : Nat :=
  match p with
  | [] => 1
  | (a, _) :: _ =>
    let widths := (List.range a.length).map fun i =>
      (p.map fun t => t.1.getD i 0).foldl max 0 + 1
    widths.foldl (· * ·) 1 + 1

def quotient (p q : GaussPolynomial) : GaussPolynomial := divide p q (termBound p)

def pseudoRemainder (p q : GaussPolynomial) : Nat → GaussPolynomial
  | 0 => p
  | fuel + 1 =>
    if p.isEmpty ∨ degree p < degree q then p
    else
      let lead := lift 0 (coefficientAt q (degree q))
      let top := lift (degree p - degree q) (coefficientAt p (degree p))
      pseudoRemainder (sub (mul lead p) (mul top q)) q fuel

mutual

/-- The greatest common divisor of polynomials in `n` variables, up to a constant. -/
def gcd (fuel n : Nat) (p q : GaussPolynomial) : GaussPolynomial :=
  match fuel, n with
  | 0, _ => Sparse.constant .gauss n .one
  | _ + 1, 0 => Sparse.constant .gauss 0 .one
  | fuel + 1, n + 1 =>
    if p.isEmpty then q
    else if q.isEmpty then p
    else
      let c := content fuel n p
      let d := content fuel n q
      let g := primitiveGcd fuel n (quotient p (lift 0 c)) (quotient q (lift 0 d))
      mul (lift 0 (gcd fuel n c d)) g

/-- The greatest common divisor of the coefficients of the powers of the first variable. -/
def content (fuel n : Nat) (p : GaussPolynomial) : GaussPolynomial :=
  match fuel with
  | 0 => Sparse.constant .gauss n .one
  | fuel + 1 => (degrees p).foldl (fun acc d => gcd fuel n acc (coefficientAt p d)) []

def primitiveGcd (fuel n : Nat) (p q : GaussPolynomial) : GaussPolynomial :=
  match fuel with
  | 0 => Sparse.constant .gauss (n + 1) .one
  | fuel + 1 =>
    if q.isEmpty then p
    else if degree q = 0 then Sparse.constant .gauss (n + 1) .one
    else
      let r := pseudoRemainder p q (degree p + 1)
      let r := if r.isEmpty then r else quotient r (lift 0 (content fuel n r))
      primitiveGcd fuel n q r

end

def depth : Nat := 10000

/-- The greatest common divisor with leading coefficient one. -/
def monicGcd (n : Nat) (p q : GaussPolynomial) : GaussPolynomial :=
  match gcd depth n p q with
  | [] => []
  | (a, c) :: rest => Sparse.scale .gauss c.inv ((a, c) :: rest)

def denominator (p : GaussPolynomial) : Nat :=
  p.foldl (fun acc t => Nat.lcm (Nat.lcm acc t.2.re.den) t.2.im.den) 1

def integerContent (p : GaussPolynomial) : Gauss := p.foldl (fun acc t => Gauss.gcd acc t.2) .zero

/-- A fraction in lowest terms with integer coefficients and a leading coefficient of the
denominator in the first quadrant. -/
def lowestTerms (n : Nat) (p q : GaussPolynomial) : GaussPolynomial × GaussPolynomial :=
  if p.isEmpty then ([], Sparse.constant .gauss n .one)
  else
    let g := monicGcd n p q
    let p := quotient p g
    let q := quotient q g
    let m := Nat.lcm (denominator p) (denominator q)
    let p := Sparse.scale .gauss (.ofRat m) p
    let q := Sparse.scale .gauss (.ofRat m) q
    let c := Gauss.gcd (integerContent p) (integerContent q)
    let p := Sparse.scale .gauss c.inv p
    let q := Sparse.scale .gauss c.inv q
    let u := match q with
      | (_, d) :: _ => d.unitOf
      | [] => .one
    (Sparse.scale .gauss u p, Sparse.scale .gauss u q)

end GaussPolynomial

end Orthant
