import Orthant.Number.Power

/-! # Canonical forms

Expressions as they stand after collection of like terms: sums and products of several parts in a
fixed order, a number in front if there is one. This module holds the type, its parts and the order
of its parts; sums, products and powers are built in `Form.Arithmetic`.
-/

namespace Orthant

inductive Form
  | number (c : Number)
  /-- The complex infinity, which has no direction. -/
  | unbounded
  | imaginary
  | name (s : String)
  /-- A truth value where a number should stand. -/
  | truth (b : Bool)
  /-- A relation, or truth values joined together, with what it speaks of. -/
  | statement (parts : List Form)
  | power (base exponent : Form)
  | product (factors : List Form)
  | sum (terms : List Form)
  | call (function : String) (arguments : List Form)

namespace Form

def ofRat (q : Rat) : Form := number (.exact q)

def ofInt (n : Int) : Form := number (.ofInt n)

def zero : Form := ofInt 0

def one : Form := ofInt 1

def number? : Form → Option Number
  | number c => some c
  | _ => none

def rational? : Form → Option Rat
  | number (.exact q) => some q
  | _ => none

def isZero : Form → Bool
  | number c => c.isZero
  | _ => false

def isNumber : Form → Bool
  | number _ => true
  | _ => false

def isName : Form → Bool
  | name _ => true
  | _ => false

def isLogical : Form → Bool
  | truth _ => true
  | statement _ => true
  | _ => false

def isSum : Form → Bool
  | sum _ => true
  | _ => false

def isProduct : Form → Bool
  | product _ => true
  | _ => false

def isPower : Form → Bool
  | power _ _ => true
  | _ => false

def factors : Form → List Form
  | product fs => fs
  | f => [f]

def terms : Form → List Form
  | sum ts => ts
  | f => [f]

/-- A product of factors that are in order and hold at most one number, in front. -/
def ofFactors : List Form → Form
  | [] => one
  | [f] => f
  | fs => product fs

/-- A sum of terms that are in order and hold at most one number, in front. -/
def ofTerms : List Form → Form
  | [] => zero
  | [t] => t
  | ts => sum ts

def coefficient : Form → Number × Form
  | number c => if c.isZero then (.one, number c) else (c, one)
  | product (number c :: fs) => (c, ofFactors fs)
  | f => (.one, f)

/-- The base and the exponent of a power; a power of a unit fraction is one of its denominator. -/
def baseExponent : Form → Form × Form
  | power (number (.exact q)) e =>
    if q.num = 1 ∧ q.den ≠ 1 then
      match e with
      | number c => (ofInt q.den, number c.neg)
      | e => (ofRat q, e)
    else (ofRat q, e)
  | power b e => (b, e)
  | f => (f, one)

mutual

def names : Form → List String
  | number _ => []
  | unbounded => []
  | imaginary => []
  | name s => [s]
  | truth _ => []
  | statement ps => namesOf ps
  | power b e => b.names ++ e.names
  | product fs => namesOf fs
  | sum ts => namesOf ts
  | call _ as => namesOf as

def namesOf : List Form → List String
  | [] => []
  | f :: fs => f.names ++ namesOf fs

end

mutual

/-- Whether a truth value or a statement stands somewhere. -/
def hasTruth : Form → Bool
  | truth _ => true
  | statement _ => true
  | power b e => b.hasTruth || e.hasTruth
  | product fs => anyTruth fs
  | sum ts => anyTruth ts
  | call _ as => anyTruth as
  | _ => false

def anyTruth : List Form → Bool
  | [] => false
  | f :: fs => f.hasTruth || anyTruth fs

end

/-! ## The order of parts -/

/-- The place of a form's kind. The numbers 0, 1, 1/2 and -1, the infinities and the undefined
number have kinds of their own. -/
def kind : Form → Nat
  | number (.exact q) =>
    if q = 0 then 0 else if q = 1 then 1 else if q = mkRat 1 2 then 2 else if q = -1 then 5
    else if q.den = 1 then 7 else 8
  | number (.infinite s) => if s then 6 else 3
  | number .undefined => 4
  | number (.approx _ _) => 9
  | imaginary => 10
  | name _ => 11
  | power _ _ => 12
  | product _ => 13
  | sum _ => 14
  | call f _ => if f = "Abs" then 15 else 16
  | unbounded => 16
  | truth _ => 16
  | statement _ => 16

def kindName : Form → String
  | call f _ => f
  | unbounded => "ComplexInfinity"
  | truth b => if b then "BooleanTrue" else "BooleanFalse"
  | statement _ => "Statement"
  | _ => ""

def compareInt (a b : Int) : Ordering := if a < b then .lt else if b < a then .gt else .eq

def compareText (s t : String) : Ordering := if s < t then .lt else if t < s then .gt else .eq

/-- Exact numbers go by numerator and denominator; inexact ones by sign, odd significand, exponent
and bits. -/
def orderNumber : Number → Number → Ordering
  | .exact p, .exact q => (compareInt p.num q.num).then (compareInt p.den q.den)
  | .approx j p, .approx k q =>
    let sign (r : Rat) : Int := if r < 0 then 1 else 0
    let (m, d) := Binary.split p
    let (n, e) := Binary.split q
    (((compareInt (sign p) (sign q)).then (compareInt m n)).then (compareInt d e)).then
      (compareInt j k)
  | _, _ => .eq

mutual

/-- The order in which the parts of a sum or a product stand: by kind, then by the number of parts,
then part by part. -/
def order (a b : Form) : Ordering :=
  match a, b with
  | number c, number d =>
    (compareInt (number c).kind (number d).kind).then (orderNumber c d)
  | name s, name t => compareText s t
  | power a b, power c d => (order a c).then (order b d)
  | product fs, product gs => (compareInt fs.length gs.length).then (orderList fs gs)
  | sum fs, sum gs => (compareInt fs.length gs.length).then (orderList fs gs)
  | statement fs, statement gs => (compareInt fs.length gs.length).then (orderList fs gs)
  | call f as, call g bs =>
    ((compareText f g).then (compareInt as.length bs.length)).then (orderList as bs)
  | a, b => (compareInt a.kind b.kind).then (compareText a.kindName b.kindName)

def orderList (as bs : List Form) : Ordering :=
  match as, bs with
  | a :: as, b :: bs => (order a b).then (orderList as bs)
  | _, _ => .eq

end

def same (a b : Form) : Bool := order a b == .eq

def isOne (a : Form) : Bool :=
  match a with
  | number (.exact q) => q == 1
  | _ => false

def sortParts (fs : List Form) : List Form := fs.mergeSort fun a b => order a b != .gt

end Form

end Orthant
