import Orthant.EquationSystem.General
import Orthant.Form.Numeric
import Orthant.Form.Substitution

/-! # Systems at given values

Unknowns and parameters may be given as anything that stands for a number or an expression. Exact
numbers are put into the rows directly; for all else the equations become forms, in which the names
are replaced.
-/

namespace Orthant

namespace Value

/-- The form that a value stands for: a text is read as an expression. -/
def toForm : Value → Except Error Form
  | real (.bool b) => .ok (.truth b)
  | real x => .ok (.number (x.toNumber.getD .undefined))
  | complex z =>
    .ok (Form.add (.number z.re.toNumber) (Form.mul (.number z.im.toNumber) .imaginary))
  | text s => Expr.formOf s
  | absent => fail .malformed
  | list _ => fail .malformed

def exactNumber? {K : Type} [Exact K] : Value → Option K
  | real (.int n) => some (Exact.ofRat n)
  | real (.rational q) => some (Exact.ofRat q)
  | _ => none

end Value

variable {K : Type} [Add K] [Mul K] [Pow K Int] [Exact K] [Symbolic K]

def Equation.toForm (names : List String) (e : Equation K) : Form :=
  Form.sumOf (e.map fun r => Form.times (Symbolic.toForm r.2 ::
    ((names.zip r.1).filter fun p => p.2 ≠ 0).map fun p => (Form.name p.1).pow (.ofInt p.2)))

/-- The rows of equations as they are written, with their double coefficients. -/
structure Listing where
  unknowns : List String
  parameters : List String
  equations : List (List (List Int × Form))
  terms : Except Error (List (List (List Int) × List Double))

namespace Listing

def t (l : Listing) : String := l.unknowns.headD ""

def coefficientDouble : Form → Except Error Double
  | .number c => .ok c.toDouble
  | _ => fail .kind

def ofForms (names : List String) (fs : List Form) : Except Error Listing := do
  if Polynomial.hasRepeats names then fail .generators
  else
    let gens := names.map Form.name
    let zeros : List Nat × Form := (List.replicate names.length 0, .zero)
    let equations ← fs.mapM fun f => do
      let ms ← f.polynomialIn gens
      .ok ((if ms.isEmpty then [zeros] else ms).map fun m => (m.1.map Int.ofNat, m.2))
    .ok ⟨names, [], equations, equations.mapM fun e => do
      .ok (e.map Prod.fst, ← e.mapM fun r => coefficientDouble r.2)⟩

end Listing

namespace EquationSystem

def names (s : EquationSystem K) : List String := s.unknowns ++ s.parameters

def listing (s : EquationSystem K) : Except Error Listing := do
  let rows ← s.listings
  .ok ⟨s.unknowns, s.parameters, rows.map fun e => e.map fun r => (r.1, Symbolic.toForm r.2),
    s.terms⟩

def substituted (s : EquationSystem K) (rs : List (String × Form)) : Except Error (List Form) :=
  s.equations.mapM fun e => Form.substitute rs (e.toForm s.names)

/-- Names with the forms of their values; values beyond the names do not count. -/
def replacements (names : List String) (values : List Value) :
    Except Error (List (String × Form)) :=
  (names.zip values).mapM fun p => do .ok (p.1, ← p.2.toForm)

/-- The listing of the system with every parameter fixed. -/
def specializeValues (s : EquationSystem K) (values : List Value) : Except Error Listing :=
  if values.length ≠ s.parameters.length then
    .error (.parameterCount s.parameters.length values.length)
  else do
    let rs ← replacements s.parameters values
    match rs.mapM fun r => Symbolic.number? r.2 with
    | some cs => (← s.specialize cs).listing
    | none => Listing.ofForms s.unknowns ((← s.substituted rs).map Form.expand)

def evaluateForms (s : EquationSystem K) (point parameters : List Value) :
    Except Error (List Complex) := do
  let rs ← replacements s.unknowns point
  let qs ← replacements s.parameters parameters
  s.equations.mapM fun e => do (← Form.substitute (rs ++ qs) (e.toForm s.names)).toComplex

/-- The values of all equations. Exact numbers give exact values before they are rounded. -/
def evaluate (s : EquationSystem K) (point parameters : List Value) :
    Except Error (List Complex) :=
  let xs := point.take s.unknowns.length
  let ps := parameters.take s.parameters.length
  match xs.mapM Value.exactNumber?, ps.mapM Value.exactNumber? with
  | some us, some vs =>
    if s.isDefinedAt us vs then do
      .ok ((← s.exactValues us vs).map fun x => ⟨Exact.toDouble x, .zero⟩)
    else s.evaluateForms xs ps
  | _, _ => s.evaluateForms xs ps

end EquationSystem

end Orthant
