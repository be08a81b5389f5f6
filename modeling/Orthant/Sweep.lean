import Orthant.Check
import Orthant.Family
import Orthant.Separation.Nonseparable
import Orthant.Solver.Client

/-! # A sweep across the boundary

Checks members of the family at several multiples of the critical coefficient, by both methods, and
prints a line for each. What has been printed stays when a check fails.
-/

namespace Orthant

/-- What a sweep has printed, in a session of the engine. -/
structure Printout where
  text : String
  session : Session
  /-- How often the clock has been read. -/
  readings : Nat

structure Sweep where
  /-- The number of variables of the members. -/
  count : Nat
  degree : Int
  /-- Whether there is an engine. -/
  attached : Bool
  engine : Engine
  clock : Clock

namespace Sweep

def standardScales : List Double := [9, 10, 11].map fun k => Double.ofRat (scaleTen k (-1))

/-- The multiples that the arguments name, the standard ones without arguments. -/
def readScales (args : List String) : Except Error (List Double) :=
  if args.isEmpty then .ok standardScales
  else args.mapM fun a => match readDouble? a with
    | some x => .ok x
    | none => fail .value

/-- A text filled up with blanks to a width. -/
def padded (width : Nat) (s : String) : String :=
  s ++ String.ofList (List.replicate (width - s.length) ' ')

def rule (c : Char) : String := String.ofList (List.replicate 80 c)

def print (line : String) : Work Printout Unit :=
  Work.update fun p => { p with text := p.text ++ line ++ "\n" }

def heading : List String :=
  [rule '=', "COPOSITIVITY SWEEP, c* = " ++ Member.critical.fixed 15, rule '=']

def member (w : Sweep) (scale : Double) : Member :=
  ⟨w.count, w.degree, scale.mul Member.critical⟩

def classify (w : Sweep) : Work Printout Bool := do
  let s ← Work.ofExcept (w.member .one).supportByName
  let cfg := Separation.configOf Options.standard ⟨.absent, .absent, .absent, .absent⟩
  Work.ofLogged (Separation.isNonseparableSupport cfg w.clock s)

def inSession {α : Type} (w : Sweep) (a : Work Connection α) : Work Printout α :=
  a.zoom (fun p => Connection.start w.attached p.session) fun c p => { p with session := c.session }

/-- The seconds between the next two readings of the clock. -/
def elapsed (w : Sweep) : Work Printout Rat := do
  let p ← Work.memory
  Work.update fun p => { p with readings := p.readings + 2 }
  return w.clock (p.readings + 1) - w.clock p.readings

def resultLine (d : Decision) (seconds : Rat) : String :=
  "  " ++ padded 12 d.method.text ++ ": copositive=" ++ padded 7 d.copositive.text ++
    " t_min=" ++ d.tMin.fixed 15 ++ " positive=" ++ toString d.positive.length ++
    " time=" ++ fixedRat 1 seconds ++ "s"

def intervalLine (r : Rectangle) : Except Error String := do
  .ok ("  " ++ padded 12 "" ++ "  t interval: " ++ (← r.text))

def checkBy (w : Sweep) (m : Member) (method : Method) : Work Printout Unit := do
  let s ← Work.ofExcept m.support
  let v ← w.inSession (Check.run (Client.solver w.engine) Options.standard method s)
  print (resultLine v.decision (← w.elapsed))
  match v.decision.interval with
  | none => return ()
  | some r => print (← Work.ofExcept (intervalLine r))

def checkScale (w : Sweep) (scale : Double) : Work Printout Unit := do
  print ("\n" ++ rule '-')
  print ("c = " ++ scale.text ++ " * c*")
  print (rule '-')
  w.checkBy (w.member scale) .general
  w.checkBy (w.member scale) .nonseparable

def run (w : Sweep) (args : List String) : Work Printout Unit := do
  let scales ← Work.ofExcept (readScales args)
  heading.forM print
  let b ← w.classify
  print ("\nSigned support nonseparable: " ++ (Quantity.bool b).text)
  scales.forM w.checkScale

end Sweep

end Orthant
