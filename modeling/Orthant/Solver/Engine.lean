import Orthant.Solver.Basic

/-! # The algebra engine

The engine computes outside this library. What reaches it is a sequence of events, and each of its
answers may depend on all of them.
-/

namespace Orthant

/-- What the engine raises: exceptions of the classes that its callers handle. Interrupts and requests to
exit are of other classes, and nothing is said about them. -/
inductive Failure
  /-- A failure that says itself that it is one of the engine. -/
  | engine (text : String)
  | other (kind text : String)
  deriving DecidableEq

namespace Failure

def text : Failure → String
  | engine text => text
  | other _ text => text

def toError : Failure → Error
  | engine text => .engineReported text
  | other kind text => .raised kind text

/-- The failure of an activity of the engine; one that is the engine's own stays as it is. -/
def during (activity : String) : Failure → Error
  | engine text => .engineReported text
  | other _ text => .engineFailed activity text

end Failure

/-- The texts of the balls of all coordinates. -/
structure Balls where
  re : List String
  im : List String

/-- What the engine says about one solution. -/
structure Entry where
  candidate : Value
  positive : Bool
  certified : Bool
  interval : Option Balls
  refined : Option Balls

/-- What reaches the engine. -/
inductive Event
  /-- Asks whether the definitions are marked as made. -/
  | ask
  /-- Loads the packages. -/
  | load
  /-- Makes the definitions. -/
  | define
  /-- Marks the definitions as made. -/
  | mark
  | system (unknowns parameters : List String) (exponents : List (List Int))
      (coefficients : List (List Double))
  | solve (seed : Int)
  | track (starts : List Solution) (start target : List Double) (seed : Int)
  | certify (solutions : List Solution)
  deriving DecidableEq

/-- The answers of an engine after all that has reached it. -/
structure Engine where
  load : List Event → Option Failure
  system : List Event → Option Failure
  solve : List Event → Except Failure (List Value)
  track : List Event → Except Failure (List Value)
  certify : List Event → Except Failure (List Entry)

/-- What has reached the engine, and whether its definitions are marked as made. -/
structure Session where
  defined : Bool
  events : List Event

namespace Session

def receive (s : Session) (e : Event) : Session where
  defined := s.defined || e == .mark
  events := s.events ++ [e]

end Session

end Orthant
