import Orthant.Error
import Orthant.Form.Arithmetic
import Orthant.Number.Gauss

/-! # Numeric values of forms

The complex double that a form without names stands for. Sums, products and integer powers are taken
exactly, roots to many more bits than a double has, and the result is rounded.
-/

namespace Orthant

namespace Form

def rootBits : Nat := 200

/-- A power of an exact complex number: an integer power, or a root of a real number. -/
def gaussPower? (z : Gauss) (e : Rat) : Option Gauss :=
  if e.den = 1 then (if z.isZero && e.num < 0 then none else some (z.pow e.num))
  else if z.im = 0 ∧ 0 < z.re then some (.ofRat (Binary.powFraction rootBits z.re e))
  else if z.im = 0 ∧ z.re < 0 ∧ e.den = 2 then
    let r := Binary.powFraction rootBits (-z.re) e
    some (if e.num % 4 = 1 then ⟨0, r⟩ else ⟨0, -r⟩)
  else none

mutual

/-- The exact complex number, or one that is close to it, that a finite form is. -/
def gauss? (f : Form) : Option Gauss :=
  match f with
  | number c => if c.isFinite then some (.ofRat c.value) else none
  | imaginary => some ⟨0, 1⟩
  | power b e => do
    let z ← b.gauss?
    let w ← e.gauss?
    if w.im = 0 then gaussPower? z w.re else none
  | product fs => do some ((← gausses? fs).foldl Gauss.mul .one)
  | sum ts => do some ((← gausses? ts).foldl Gauss.add .zero)
  | _ => none

def gausses? (fs : List Form) : Option (List Gauss) :=
  match fs with
  | [] => some []
  | f :: fs => do some ((← f.gauss?) :: (← gausses? fs))

end

/-- The complex double of a form. A name has no value, and a truth value has no parts. -/
def toComplex (f : Form) : Except Error Complex :=
  if f.hasTruth then fail .part
  else if !f.names.isEmpty then fail .kind
  else match f.gauss? with
    | some z => .ok z.toComplex
    | none =>
      match f with
      | number .undefined => .ok ⟨.nan, .nan⟩
      | unbounded => .ok ⟨.nan, .nan⟩
      | f => match f.complex? with
        | some (a, b) => .ok ⟨a.toDouble, b.toDouble⟩
        | none => fail .kind

end Form

end Orthant
