import Orthant.Error
import Orthant.Form.Arithmetic
import Orthant.Text.Vocabulary

/-! # Functions of forms

Remainders, whole parts of quotients, factorials and functions with a known value at a number. What
has no such value stays as a call.
-/

namespace Orthant

namespace Number

/-- The largest integer that is not above a finite number. -/
def floor (c : Number) : Int := c.value.num / (c.value.den : Int)

def remainder (a b : Number) : Number :=
  let q := a.value - ((exact (a.value / b.value)).floor : Rat) * b.value
  if a.isExact && b.isExact then exact q else inexact (max a.bits b.bits) q

def larger (a b : Number) : Number := if a.le b then b else a

def smaller (a b : Number) : Number := if a.le b then a else b

end Number

def productTo : Nat → Nat
  | 0 => 1
  | n + 1 => (n + 1) * productTo n

namespace Form

def factorial (a : Form) : Form :=
  match a with
  | number (.exact q) =>
    if q.den ≠ 1 then call "factorial" [a]
    else if q.num < 0 then unbounded
    else ofInt (productTo q.num.toNat)
  | a => call "factorial" [a]

def remainder (a b : Form) : Except Error Form :=
  if b.isZero then fail .zeroDivision
  else match a, b with
    | number c, number d =>
      if c.isFinite && d.isFinite then .ok (number (c.remainder d)) else .ok (call "Mod" [a, b])
    | a, b => .ok (if a.same b then zero else call "Mod" [a, b])

def wholePart (a b : Form) : Except Error Form :=
  match a, b with
  | number c, number d =>
    if d.isZero then fail .zeroDivision
    else if c.isFinite && d.isFinite then
      .ok (ofInt (Number.exact (c.value / d.value)).floor)
    else .ok (call "floor" [a.div b])
  | a, b => .ok (call "floor" [a.div b])

def valueAt? (f : String) (c : Number) : Option Form :=
  if f = "abs" ∨ f = "Abs" then some (number c.abs)
  else if f = "floor" then some (ofInt c.floor)
  else if f = "ceiling" then some (ofInt (-c.neg.floor))
  else if f = "sign" then
    some (ofInt (if c.isPositive then 1 else if c.isNegative then -1 else 0))
  else if f = "re" ∨ f = "conjugate" then some (number c)
  else if f = "im" then some zero
  else if c = .zero then (Vocabulary.atZero? f).map fun n => ofInt n
  else if c = .one ∧ Vocabulary.vanishesAtOne f then some zero
  else none

def usualName (f : String) : String :=
  if f = "abs" then "Abs"
  else if f = "ln" then "log"
  else if f = "max" then "Max"
  else if f = "min" then "Min"
  else f

def applyUnary (f : String) (a : Form) : Form :=
  if f = "sqrt" then a.pow (ofRat (mkRat 1 2))
  else if f = "cbrt" then a.pow (ofRat (mkRat 1 3))
  else if f = "factorial" then a.factorial
  else
    let stays := call (usualName f) [a]
    match a with
    | number c => if c.isFinite then (valueAt? f c).getD stays else stays
    | _ => stays

def extreme? (choose : Number → Number → Number) (as : List Form) : Option Form := do
  let cs ← as.mapM number?
  match cs with
  | [] => none
  | c :: cs => if (c :: cs).all Number.isFinite then some (number (cs.foldl choose c)) else none

def severalValue? (f : String) (as : List Form) : Option Form :=
  if f = "Add" then some (sumOf as)
  else if f = "Mul" then some (times as)
  else if f = "max" ∨ f = "Max" then extreme? Number.larger as
  else if f = "min" ∨ f = "Min" then extreme? Number.smaller as
  else match as with
    | [number c] => if f = "log" ∨ f = "ln" then valueAt? f c else none
    | [a, b] => if f = "pow" ∨ f = "Pow" then some (a.pow b) else none
    | _ => none

/-- A function of its arguments, which are no truth values; one of one argument has no others. -/
def apply (f : String) (as : List Form) : Except Error Form :=
  if as.any isLogical then fail .kind
  else if Vocabulary.unary.contains f then
    match as with
    | [a] => .ok (applyUnary f a)
    | _ => fail .kind
  else .ok ((severalValue? f as).getD (call (usualName f) as))

end Form

end Orthant
