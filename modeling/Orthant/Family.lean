import Orthant.EquationSystem.General

/-! # A family across the boundary of copositivity

The polynomials `x1^d + ... + xn^d - c * x1 * ... * xn + 1`. For four variables of degree 40 the
member is copositive exactly up to the critical coefficient.
-/

namespace Orthant

structure Member where
  /-- The number of variables. -/
  count : Nat
  degree : Int
  coefficient : Double

namespace Member

/-- The largest `c` for which the member with four variables of degree 40 is copositive, that is
the tenth root of `40 * (10/9)^9`, to fifteen places. -/
def critical : Double := Double.ofRat (scaleTen 1589965645672506 (-15))

def scaled : Value → Except Error Double
  | .real x => x.toDouble.map fun s => s.mul critical
  | _ => fail .kind

def nameAt (i : Nat) : String := "x" ++ toString (i + 1)

/-- The places of the variables in the order of their names' code points. -/
def byName (m : Member) : List Nat :=
  (List.range m.count).mergeSort fun i j => decide (nameAt i ≤ nameAt j)

/-- The terms for variables in a given order: the powers, the product, the constant. -/
def rows (m : Member) (order : List Nat) (c : Rat) : List Row :=
  (List.range m.count).map (fun i => (order.map fun j => if i = j then m.degree else 0, .one)) ++
    (if c = 0 then [] else [(order.map fun _ => 1, (.approx doubleBits (-c)))]) ++
    [(order.map fun _ => 0, .one)]

def supportOfRows (names : List String) (e : Equation) : Except Error Support := do
  let exponents ← e.mapM fun r => r.1.mapM toWord
  .ok ⟨names, exponents, e.map Prod.snd, true⟩

/-- The support for variables in a given order. An infinite coefficient is not real. One that is
not a number spoils the sum, of which no more than one constant is left. -/
def supportIn (m : Member) (order : List Nat) : Except Error Support :=
  let names := order.map nameAt
  if names.isEmpty then .error .noVariables
  else if m.coefficient.isNaN then .ok ⟨names, [order.map fun _ => 0], [.undefined], true⟩
  else if m.degree < 0 then .error (.notPolynomialIn names)
  else match m.coefficient.value? with
    | some c =>
      supportOfRows names ((Equation.collect m.count (m.rows order c)).listing m.count)
    | none => .error (.coefficientNotReal (if m.coefficient.isNegative then "oo" else "-oo")
        (order.map fun _ => 1))

def support (m : Member) : Except Error Support := m.supportIn (List.range m.count)

def supportByName (m : Member) : Except Error Support := do
  let s ← m.supportIn m.byName
  if s.exponents.all fun a => a.all (· = 0) then .error .noVariables else .ok s

end Member

end Orthant
