import Orthant.Number.Rounding

/-! # Doubles

A double is kept by its value: not a number, an infinity, the negative zero, or a rational that
the format holds. Every operation is the exact one followed by `ofRat`, the rounding to the
nearest double.
-/

namespace Orthant

inductive Double
  | nan
  | infinite (negative : Bool)
  | negZero
  | finite (q : Rat)
  deriving DecidableEq

namespace Double

def minExponent : Int := -1074

/-- The nearest double, a half going to the even significand. Values beyond the range become
infinite, and a negative value that vanishes keeps its sign. -/
def ofRat (q : Rat) : Double :=
  if q.num = 0 then finite 0
  else
    let e := max (floorLogTwo q.num.natAbs q.den - 52) minExponent
    let m := roundTwo q e
    if m = 0 then (if q.num < 0 then negZero else finite 0)
    else
      let v := scaleTwo m e
      if (twoPow 1024 : Nat) ≤ v.num.natAbs ∧ v.den = 1 then infinite (decide (v.num < 0))
      else finite v

def zero : Double := finite 0

def one : Double := finite 1

def ofInt (n : Int) : Double := ofRat n

def value? : Double → Option Rat
  | nan => none
  | infinite _ => none
  | negZero => some 0
  | finite q => some q

def isNaN : Double → Bool
  | nan => true
  | _ => false

def isNegative : Double → Bool
  | nan => false
  | infinite s => s
  | negZero => true
  | finite q => decide (q < 0)

/-- Strict order of the values. Nothing is below or above `nan`, and the zeros are equal. -/
def lt : Double → Double → Bool
  | nan, _ => false
  | _, nan => false
  | infinite s, infinite t => s && !t
  | infinite s, _ => s
  | _, infinite t => !t
  | negZero, negZero => false
  | negZero, finite q => decide (0 < q)
  | finite p, negZero => decide (p < 0)
  | finite p, finite q => decide (p < q)

/-- Equality of the values, so that the zeros are equal and `nan` differs from itself. -/
def same : Double → Double → Bool
  | nan, _ => false
  | _, nan => false
  | infinite s, infinite t => s == t
  | negZero, negZero => true
  | negZero, finite q => q == 0
  | finite p, negZero => p == 0
  | finite p, finite q => p == q
  | _, _ => false

def le (x y : Double) : Bool := lt x y || same x y

def neg : Double → Double
  | nan => nan
  | infinite s => infinite (!s)
  | negZero => finite 0
  | finite q => if q = 0 then negZero else finite (-q)

def signedZero (negative : Bool) : Double := if negative then negZero else finite 0

def mul (x y : Double) : Double :=
  match x, y with
  | nan, _ => nan
  | _, nan => nan
  | infinite s, z | z, infinite s =>
    if z.same zero then nan else infinite (s != z.isNegative)
  | _, _ =>
    let p := (x.value?.getD 0) * (y.value?.getD 0)
    if p = 0 then signedZero (x.isNegative != y.isNegative) else ofRat p

def add (x y : Double) : Double :=
  match x, y with
  | nan, _ => nan
  | _, nan => nan
  | infinite s, infinite t => if s = t then infinite s else nan
  | infinite s, _ => infinite s
  | _, infinite s => infinite s
  | negZero, negZero => negZero
  | _, _ => ofRat ((x.value?.getD 0) + (y.value?.getD 0))

def sub (x y : Double) : Double := x.add y.neg

def div (x y : Double) : Double :=
  match x, y with
  | nan, _ => nan
  | _, nan => nan
  | infinite _, infinite _ => nan
  | infinite s, y => infinite (s != y.isNegative)
  | x, infinite s => signedZero (x.isNegative != s)
  | _, _ =>
    let p := x.value?.getD 0
    let q := y.value?.getD 0
    if q = 0 then (if p = 0 then nan else infinite (x.isNegative != y.isNegative))
    else if p = 0 then signedZero (x.isNegative != y.isNegative)
    else ofRat (p / q)

def isFinite (x : Double) : Bool := x.value?.isSome

def abs (x : Double) : Double := if x.isNegative then x.neg else x

end Double

end Orthant
