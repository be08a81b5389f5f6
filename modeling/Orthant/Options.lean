import Orthant.Error

/-! # Options of the check

Options are built from keyword settings and changed by overrides; either way the three bounds are
checked in a fixed order, and a failing step leaves the last options as they were.
-/

namespace Orthant

structure Options where
  /-- Barycentric tolerance for containment in a simplex. -/
  tol : Quantity
  /-- Handed to the solver. -/
  seed : Value
  /-- The most triangulations that are visited. -/
  limit : Quantity
  /-- Seconds that the enumeration may take; none is no bound. -/
  budget : Option Quantity
  /-- Use the refined box of `t` when there is one. -/
  preferRefined : Value
  /-- Report why the classifier gives up. -/
  verbose : Value

abbrev Setting := String × Value

namespace Options

def defaultSeed : Int := 0x68A5C2C6

def defaultTolerance : Quantity := .double (Double.ofRat (scaleTen 1 (-9)))

def standard : Options where
  tol := defaultTolerance
  seed := .ofInt defaultSeed
  limit := .int 10000
  budget := some (.double (.finite 300))
  preferRefined := .ofBool true
  verbose := .ofBool true

/-- Settings that have not been checked. -/
structure Draft where
  tol : Value
  seed : Value
  limit : Value
  budget : Value
  preferRefined : Value
  verbose : Value

def draft (o : Options) : Draft where
  tol := .real o.tol
  seed := o.seed
  limit := .real o.limit
  budget := o.budget.elim .absent .real
  preferRefined := o.preferRefined
  verbose := o.verbose

namespace Draft

def set (d : Draft) : Setting → Except Error Draft
  | ("tol", v) => .ok { d with tol := v }
  | ("seed", v) => .ok { d with seed := v }
  | ("max_triangulations", v) => .ok { d with limit := v }
  | ("time_budget", v) => .ok { d with budget := v }
  | ("prefer_refined_interval", v) => .ok { d with preferRefined := v }
  | ("verbose", v) => .ok { d with verbose := v }
  | _ => fail .kind

def quantity : Value → Except Error Quantity
  | .real x => .ok x
  | _ => fail .kind

def checkTolerance (v : Value) : Except Error Quantity := do
  let x ← quantity v
  if x.atLeast 0 then .ok x else .error (.toleranceNegative x)

def checkLimit (v : Value) : Except Error Quantity := do
  let x ← quantity v
  if x.below 1 then .error (.limitNotPositive x) else .ok x

def checkBudget : Value → Except Error (Option Quantity)
  | .absent => .ok none
  | v => do
    let x ← quantity v
    if x.above 0 then .ok (some x) else .error (.budgetNotPositive x)

/-- The tolerance is checked first, then the limit, then the budget. -/
def check (d : Draft) : Except Error Options := do
  let tol ← checkTolerance d.tol
  let limit ← checkLimit d.limit
  let budget ← checkBudget d.budget
  .ok ⟨tol, d.seed, limit, budget, d.preferRefined, d.verbose⟩

end Draft

/-- The options with some fields set anew. -/
def override (o : Options) (settings : List Setting) : Except Error Options := do
  (← settings.foldlM Draft.set o.draft).check

def ofSettings (settings : List Setting) : Except Error Options := standard.override settings

/-- The outcomes of a sequence of steps, each an override of the last good options. -/
def historyFrom (last : Options) : List (List Setting) → List (Except Error Options)
  | [] => []
  | step :: steps =>
    match last.override step with
    | .ok o => .ok o :: historyFrom o steps
    | .error e => .error e :: historyFrom last steps

/-- The outcomes of a sequence of steps from the standard options. -/
def history (steps : List (List Setting)) : List (Except Error Options) :=
  historyFrom standard steps

end Options

end Orthant
