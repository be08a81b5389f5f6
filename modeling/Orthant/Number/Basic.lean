import Orthant.Value

/-! # Numbers

A number is exact, or it is known to some count of significant bits with any exponent, or it is an
infinity, or it is undefined. An operation with an inexact operand has the larger count of bits: it
rounds the exact operand first and the result afterwards. A result that is zero is exact.

The exact numbers are a parameter: the rationals where numbers are read and calculated, and any
field where a statement is about all exact coefficients, irrational ones like a square root among
them.
-/

namespace Orthant

/-- Exact numbers: rationals are among them, each of them has a sign and can be rounded. -/
class Exact (K : Type) where
  ofRat : Rat → K
  isZero : K → Bool
  isNegative : K → Bool
  /-- The nearest number with so many significant bits. -/
  roundBits : Nat → K → Rat
  toDouble : K → Double

instance : Exact Rat := ⟨fun q => q, (· == 0), (· < 0), roundBits, Double.ofRat⟩

inductive Number (K : Type := Rat)
  | exact (q : K)
  | approx (bits : Nat) (q : Rat)
  | infinite (negative : Bool)
  | undefined
  deriving DecidableEq

namespace Number

variable {K : Type} [Add K] [Mul K] [Neg K] [Inv K] [Exact K]

def value : Number K → K
  | exact q => q
  | approx _ q => Exact.ofRat q
  | _ => Exact.ofRat 0

def isExact : Number K → Bool
  | exact _ => true
  | _ => false

def isApprox : Number K → Bool
  | approx _ _ => true
  | _ => false

def isFinite : Number K → Bool
  | exact _ => true
  | approx _ _ => true
  | _ => false

def isUndefined : Number K → Bool
  | undefined => true
  | _ => false

/-- The significant bits of an inexact number; an exact one asks for none. -/
def bits : Number K → Nat
  | approx k _ => k
  | _ => 0

def ofInt (n : Int) : Number K := exact (Exact.ofRat n)

def zero : Number K := exact (Exact.ofRat 0)

def one : Number K := exact (Exact.ofRat 1)

def isZero : Number K → Bool
  | exact q => Exact.isZero q
  | approx _ q => q == 0
  | _ => false

def isNegative : Number K → Bool
  | exact q => Exact.isNegative q
  | approx _ q => decide (q < 0)
  | infinite s => s
  | undefined => false

/-- The value to a count of bits; an inexact number keeps the bits it has. -/
def rounded (k : Nat) : Number K → Rat
  | exact q => Exact.roundBits k q
  | approx _ q => q
  | _ => 0

def toApprox (k : Nat) : Number K → Number K
  | exact q => approx k (Exact.roundBits k q)
  | approx _ q => approx k (roundBits k q)
  | c => c

def inexact (k : Nat) (q : Rat) : Number K :=
  let r := roundBits k q
  if r = 0 then zero else approx k r

def neg : Number K → Number K
  | exact a => exact (-a)
  | approx k a => approx k (-a)
  | infinite s => infinite (!s)
  | undefined => undefined

def add (a b : Number K) : Number K :=
  match a, b with
  | exact p, exact q => exact (p + q)
  | undefined, _ => undefined
  | _, undefined => undefined
  | infinite s, infinite t => if s == t then infinite s else undefined
  | infinite s, _ => infinite s
  | _, infinite s => infinite s
  | _, _ =>
    let k := max a.bits b.bits
    inexact k (a.rounded k + b.rounded k)

/-- An infinity times a number other than zero. -/
def stretch (negative : Bool) (c : Number K) : Number K :=
  if c.isZero then undefined else infinite (negative != c.isNegative)

def mul (a b : Number K) : Number K :=
  match a, b with
  | exact p, exact q => exact (p * q)
  | undefined, _ => undefined
  | _, undefined => undefined
  | infinite s, _ => stretch s b
  | _, infinite s => stretch s a
  | _, _ =>
    let k := max a.bits b.bits
    inexact k (a.rounded k * b.rounded k)

def sub (a b : Number K) : Number K := a.add b.neg

/-- The reciprocal of a number other than zero. -/
def inv : Number K → Number K
  | exact q => exact q⁻¹
  | approx k q => inexact k q⁻¹
  | infinite _ => zero
  | undefined => undefined

/-- The quotient by a number other than zero. An inexact number is divided directly; an exact one
is multiplied by the rounded reciprocal of an inexact one. -/
def div (a b : Number K) : Number K :=
  match a, b with
  | approx _ _, exact _ | approx _ _, approx _ _ =>
    let k := max a.bits b.bits
    inexact k (a.rounded k / b.rounded k)
  | _, _ => a.mul b.inv

def abs (c : Number K) : Number K := if c.isNegative then c.neg else c

def toDouble : Number K → Double
  | exact q => Exact.toDouble q
  | approx _ q => Double.ofRat q
  | infinite s => .infinite s
  | undefined => .nan

def maxBits (cs : List (Number K)) : Nat := (cs.map bits).foldl max 0

/-- All numbers inexact if one of them is, to the largest count of bits. -/
def unify (cs : List (Number K)) : List (Number K) :=
  if maxBits cs = 0 then cs else cs.map (toApprox (maxBits cs))

def isPositive : Number → Bool
  | infinite s => !s
  | c => decide (0 < c.value)

def integer? : Number → Option Int
  | exact q => if q.den = 1 then some q.num else none
  | _ => none

/-- Whether `a ≤ b`, for numbers that can be compared. -/
def le (a b : Number) : Bool :=
  match a, b with
  | undefined, _ => false
  | _, undefined => false
  | infinite s, infinite t => s || !t
  | infinite s, _ => s
  | _, infinite t => !t
  | _, _ => decide (a.value ≤ b.value)

/-- An exact number as a ratio, an inexact one as a double. -/
def text : Number → String
  | exact q => ratText q
  | approx _ q => (Double.ofRat q).text
  | infinite s => if s then "-oo" else "oo"
  | undefined => "nan"

/-- A rational to an integer power; zero to a negative power is zero. -/
def ratPow (q : Rat) : Int → Rat
  | .ofNat k => mkRat (Int.pow q.num k) (Nat.pow q.den k)
  | .negSucc k =>
    let n := Nat.pow q.num.natAbs (k + 1)
    let d : Int := Nat.pow q.den (k + 1)
    mkRat (if q.num < 0 ∧ k % 2 = 0 then -d else d) n

end Number

def doubleBits : Nat := 53

/-- The bits that hold a count of decimal digits: the nearest integer to one digit more times the
binary logarithm of ten. -/
def bitsOfDigits (digits : Nat) : Nat :=
  (roundDiv (((digits + 1) * 33219280948873626 : Nat) : Int) (tenPow 16)).toNat

namespace Double

def toNumber : Double → Number
  | nan => .undefined
  | infinite s => .infinite s
  | negZero => .approx doubleBits 0
  | finite q => .approx doubleBits q

end Double

/-- A value as a number: kinds that are exact stay so. A truth value is none. -/
def Quantity.toNumber : Quantity → Option Number
  | .bool _ => none
  | .int n => some (.exact n)
  | .rational q => some (.exact q)
  | .double x => some x.toNumber

end Orthant
