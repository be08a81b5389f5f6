import Orthant.Triangulation.Twister
import Orthant.Triangulation.Walls

/-! # Enumeration of regular triangulations

Breadth first from the triangulation at random heights, across all walls. A search hands out one
triangulation after the other; its bounds are looked at each time before one is handed out.
-/

namespace Orthant

namespace Configuration

/-- The first regular triangulation among `fuel` random height vectors. -/
def initialFrom (c : Configuration) (hull : HullProgram) (rng : Twister) :
    Nat → Except Error Triangulation
  | 0 => .error .noGenericHeights
  | fuel + 1 =>
    let (hs, rng) := rng.heights c.size
    let w : Vec := hs.map fun (h : Nat) => ((h : Int) : Rat)
    match c.lowerHull w hull with
    | some t => .ok t
    | none =>
      match c.subdivision w with
      | some t => .ok t
      | none => c.initialFrom hull rng fuel

def initial (c : Configuration) (seed : Int) (hull : HullProgram := proposeCells) :
    Except Error Triangulation :=
  c.initialFrom hull (Twister.ofSeed seed) 100

end Configuration

/-- Readings of a clock: the first at the start, one for each triangulation after that. -/
abbrev Clock := Nat → Rat

/-- A clock whose readings are the multiples of a step; a double step rounds them. -/
def Clock.steady (step : Quantity) : Clock := fun i =>
  match step with
  | .double x => ((Double.ofInt i).mul x).value?.getD 0
  | q => match q.toRat with
    | .ok r => ((i : Int) : Rat) * r
    | .error _ => 0

/-- The most triangulations and the most seconds; an absent value is no bound. -/
structure Bounds where
  limit : Value
  budget : Value

namespace Bounds

def none : Bounds := ⟨.absent, .absent⟩

/-- Whether more time has passed at a reading than the budget allows. -/
def late (b : Bounds) (clock : Clock) (number : Nat) : Option Error :=
  match b.budget with
  | .absent => .none
  | .real s => if s.below (clock number - clock 0) then some (.timeExhausted s) else .none
  | _ => some (.fault .kind)

/-- The error, if any, of handing out the triangulation with a number: the limit comes first. -/
def refuse (b : Bounds) (clock : Clock) (number : Nat) : Option Error :=
  match b.limit with
  | .absent => b.late clock number
  | .real l =>
    if l.below ((number : Int) : Rat) then some (.limitReached l) else b.late clock number
  | _ => some (.fault .kind)

end Bounds

/-- A breadth-first search. -/
structure Search where
  seen : List Triangulation
  queue : List Triangulation
  /-- How many have been handed out. -/
  count : Nat
  /-- The last one handed out, whose neighbours have not been looked at. -/
  pending : Option Triangulation

/-- How a search goes on. -/
inductive Progress
  | finished (count : Nat)
  | failed (e : Error)
  | found (t : Triangulation) (rest : Search)

namespace Search

def start (t : Triangulation) : Search := ⟨[t], [t], 0, none⟩

/-- Queues a triangulation unless it has been seen. -/
def enqueue (s : Search) (t : Triangulation) : Search :=
  if s.seen.contains t then s else { s with seen := t :: s.seen, queue := s.queue ++ [t] }

def expand (c : Configuration) (s : Search) (p : Configuration.Programs := .exact) :
    Except Error Search :=
  match s.pending with
  | none => .ok s
  | some t =>
    match c.neighbours t p with
    | (ts, none) => .ok { ts.foldl enqueue s with pending := none }
    | (_, some e) => .error e

/-- The next triangulation: the neighbours of the last one are queued first, and the bounds are
looked at before one is handed out. -/
def next (c : Configuration) (b : Bounds) (clock : Clock) (s : Search)
    (p : Configuration.Programs := .exact) : Progress :=
  match s.expand c p with
  | .error e => .failed e
  | .ok s =>
    match s.queue with
    | [] => .finished s.count
    | t :: rest =>
      match b.refuse clock (s.count + 1) with
      | some e => .failed e
      | none => .found t { s with queue := rest, count := s.count + 1, pending := some t }

/-- How a run ends. -/
inductive Ending
  | finished (count : Nat)
  | failed (e : Error)
  | paused

/-- The first triangulations, at most `fuel`, and how the run ended. -/
def run (c : Configuration) (b : Bounds) (clock : Clock) (s : Search) (fuel : Nat)
    (p : Configuration.Programs := .exact) : List Triangulation × Ending :=
  match fuel with
  | 0 => ([], .paused)
  | fuel + 1 =>
    match s.next c b clock p with
    | .finished n => ([], .finished n)
    | .failed e => ([], .failed e)
    | .found t rest =>
      let (ts, e) := rest.run c b clock fuel p
      (t :: ts, e)

/-- Looks at the triangulations one after the other until a test answers. -/
def firstSome {α : Type} (c : Configuration) (b : Bounds) (clock : Clock)
    (test : Nat → Triangulation → Except Error (Option α)) (s : Search) (fuel : Nat)
    (p : Configuration.Programs := .exact) : Except Error (α ⊕ Ending) :=
  match fuel with
  | 0 => .ok (.inr .paused)
  | fuel + 1 =>
    match s.next c b clock p with
    | .finished n => .ok (.inr (.finished n))
    | .failed e => .ok (.inr (.failed e))
    | .found t rest => do
      match ← test rest.count t with
      | some a => .ok (.inl a)
      | none => rest.firstSome c b clock test fuel p

end Search

namespace Configuration

/-- More than the number of sets of simplices, so than that of triangulations. -/
def searchFuel (c : Configuration) : Nat := twoPow (c.simplices.length) + 1

end Configuration

/-- A search of all regular triangulations of points that span their space. -/
def Search.ofPoints (points : List (List Int)) (seed : Except Error Int)
    (hull : Configuration.HullProgram := Configuration.proposeCells)
    (facets : Polytope.FacetProgram := Polytope.facetSimplices) :
    Except Error (Configuration × Search) := do
  let dim := (points.headD []).length
  if affineDimension points ≠ (dim : Int) then .error .configurationNotFull
  else
    let c ← Configuration.ofPoints dim points facets
    let t ← c.initial (← seed) hull
    .ok (c, .start t)

def Search.ofGrid (g : Grid) (seed : Except Error Int) : Except Error (Configuration × Search) := do
  match g.points? with
  | some points => Search.ofPoints points seed
  | none =>
    let _ ← g.affineDimension
    .error .configurationNotFull

/-- How many triangulations are asked for: a count that fits a word, or all of them. -/
def Search.quota : Value → Except Error (Option Nat)
  | .absent => .ok none
  | .real (.bool b) => .ok (some (if b then 1 else 0))
  | .real (.int n) => if 0 ≤ n ∧ n < twoPow 63 then .ok (some n.toNat) else fail .value
  | _ => fail .value

/-- What is reported when a search has come to its end. -/
def Search.record (count size : Nat) : String :=
  "enumerated " ++ toString count ++ " regular triangulations of " ++ toString size ++ " points"

end Orthant
