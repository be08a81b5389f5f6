import Orthant.Solver.Engine

/-! # Clients of the engine

A client is a solver that works by an engine. At its first work it asks whether the definitions are
there, and otherwise loads the packages and makes them; several clients may share one session.
Boxes come back as the texts of balls, which are read exactly.
-/

namespace Orthant

structure Client where
  /-- Whether there is an engine at all. -/
  attached : Bool
  /-- Whether the client knows that the definitions are there. -/
  ready : Bool

/-- A client with the session that it works in. -/
structure Connection where
  client : Client
  session : Session

def Connection.start (attached : Bool) (s : Session) : Connection := ⟨⟨attached, false⟩, s⟩

namespace Client

def send (e : Event) : Work Connection Unit :=
  Work.update fun c => { c with session := c.session.receive e }

def events : Work Connection (List Event) := do return (← Work.memory).session.events

def setReady : Work Connection Unit :=
  Work.update fun c => { c with client := { c.client with ready := true } }

/-- Loads the packages, makes the definitions and marks them. -/
def define (engine : Engine) : Work Connection Unit := do
  send .load
  match engine.load (← events) with
  | some f => throw (.engineNotLoaded f.text)
  | none =>
    send .define
    send .mark

/-- Makes sure, once for each client, that the definitions are there. -/
def connect (engine : Engine) : Work Connection Unit := do
  let c ← Work.memory
  if !c.client.attached then throw .engineMissing
  else if c.client.ready then return ()
  else
    send .ask
    if !c.session.defined then define engine
    setReady

/-- Hands a system over: the exponents of each equation one after the other, and its double
coefficients. -/
def sendSystem (engine : Engine) (s : EquationSystem) : Work Connection Unit := do
  let equations ← Work.ofExcept s.flat
  send (.system s.unknowns s.parameters (equations.map Prod.fst) (equations.map Prod.snd))
  match engine.system (← events) with
  | some f => throw f.toError
  | none => return ()

def outcome {α : Type} (activity : String) : Except Failure α → Work Connection α
  | .ok a => return a
  | .error f => throw (f.during activity)

def seedOf : Value → Except Error Int
  | .absent => .ok 0
  | v => v.toInteger

def readSolutions (found : List Value) : Except Error (List Solution) :=
  found.mapM Value.toComplexes

def solve (engine : Engine) (s : EquationSystem) (start : Option Start) (seed : Value) :
    Work Connection (List Solution) := do
  connect engine
  sendSystem engine s
  let seed ← Work.ofExcept (seedOf seed)
  match start with
  | none =>
    Work.report ⟨.debug, "julia_oracle", "solving " ++ toString s.equations.length ++
      " equations from scratch"⟩
    send (.solve seed)
    let found ← outcome "solve" (engine.solve (← events))
    Work.ofExcept (readSolutions found)
  | some start =>
    Work.report ⟨.debug, "julia_oracle", "tracking " ++ toString start.solutions.length ++
      " start solutions over " ++ toString s.parameters.length ++ " parameters"⟩
    let starts := start.solutions.map fun p => p.map fun x => (⟨x, .zero⟩ : Complex)
    send (.track starts start.parameters start.target seed)
    let found ← outcome "parameter continuation" (engine.track (← events))
    Work.ofExcept (readSolutions found)

/-- The rectangle of two balls. A text that is no ball and an empty rectangle are failures of the
engine. -/
def readRectangle (re im : String) : Except Error Rectangle :=
  match Rectangle.ofBalls re im with
  | .error (.ballNotFinite s) => .error (.boxNotFinite ((Error.ballNotFinite s).message.getD ""))
  | .error (.emptyRectangle s) => .error (.boxNotFinite ((Error.emptyRectangle s).message.getD ""))
  | r => r

def readBox : Option Balls → Except Error (Option (List Rectangle))
  | none => .ok none
  | some b => do .ok (some (← (b.re.zip b.im).mapM fun p => readRectangle p.1 p.2))

def readEntry (e : Entry) : Except Error Certificate := do
  let candidate ← e.candidate.toComplexes
  let interval ← if e.certified then readBox e.interval else .ok none
  let refined ← if e.certified then readBox e.refined else .ok none
  .ok ⟨candidate.map Value.complex, e.positive, e.certified, interval, refined⟩

/-- Certifies solutions given as values, which are read once the system has been handed over. -/
def certifyValues (engine : Engine) (s : EquationSystem) (given : List Value) :
    Work Connection (List Certificate) := do
  if !s.parameters.isEmpty then throw .parametersLeft
  connect engine
  sendSystem engine s
  let solutions ← Work.ofExcept (readSolutions given)
  send (.certify solutions)
  let entries ← outcome "certify" (engine.certify (← events))
  Work.ofExcept (entries.mapM readEntry)

def certify (engine : Engine) (s : EquationSystem) (solutions : List Solution) :
    Work Connection (List Certificate) :=
  certifyValues engine s (solutions.map fun z => .list (z.map Value.complex))

def solver (engine : Engine) : Solver Connection := ⟨solve engine, certify engine⟩

end Client

end Orthant
