import Orthant.Journal
import Orthant.Options
import Orthant.Polytope.Interior
import Orthant.Separation.Simplex
import Orthant.Support.Basic
import Orthant.Triangulation.Enumeration

/-! # Nonseparable supports

A signed support is nonseparable when its negative exponents lie inside the hull of the positive
ones and no simplex of a regular triangulation of the positive exponents separates them. Every
degenerate case and every bound that is reached answers no.
-/

namespace Orthant

namespace Separation

structure Config where
  tol : Value
  verbose : Bool
  bounds : Bounds

def cellText (σ : Cell) : String := parenthesized (σ.map toString)

def separatingCell? (tol : Value) (n : Nat) (positive : List (List Int))
    (negative : List (List Int)) (t : Triangulation)
    (program : CoordinateProgram := numericCoordinates) : Except Error (Option Cell) :=
  match t with
  | [] => .ok none
  | σ :: rest => do
    let vertices := σ.map fun i => toVec (positive.getD i [])
    let points := negative.map fun b => .ok (pointOf b)
    if ← separates (Tolerance.ofValue tol) n vertices (.ok points) program then .ok (some σ)
    else separatingCell? tol n positive negative rest program

/-- What a search for a separating cell says, with what is reported. -/
def verdict (verbose : Bool) (size : Nat) :
    Except Error ((Nat × Cell) ⊕ Search.Ending) → Log × Except Error Bool
  | .error e => ([], .error e)
  | .ok (.inl (number, σ)) =>
    ([⟨.debug, "classifier", "triangulation " ++ toString number ++
      " separates the negatives in simplex " ++ cellText σ⟩], .ok false)
  | .ok (.inr (.finished count)) =>
    ([⟨.debug, "triangulations", Search.record count size⟩], .ok true)
  | .ok (.inr .paused) => ([], fail .exhausted)
  | .ok (.inr (.failed e)) =>
    match e with
    | .limitReached _ | .timeExhausted _ =>
      (if verbose then [⟨.warning, "classifier",
        "Giving up on the nonseparability check: " ++ e.message.getD ""⟩] else [], .ok false)
    | e => ([], .error e)

def searchCells (cfg : Config) (clock : Clock) (n : Nat) (positive negative : List (List Int))
    (p : Configuration.Programs := .exact) (program : CoordinateProgram := numericCoordinates)
    (facets : Polytope.FacetProgram := Polytope.facetSimplices) : Log × Except Error Bool :=
  match Search.ofPoints positive (.ok 0) p.hull facets with
  | .error e => ([], .error e)
  | .ok (c, s) =>
    verdict cfg.verbose c.size (s.firstSome c cfg.bounds clock (fun number t => do
      .ok ((← separatingCell? cfg.tol n positive negative t program).map fun σ => (number, σ)))
      c.searchFuel p)

/-- What is reported about negative exponents that are not inside the hull. -/
def outsideRecord (fs : List Facet) (outside : List (List Int)) : Record :=
  if outside.all (onBoundary fs) then
    ⟨.info, "classifier", "The signed support has negative terms on the boundary."⟩
  else ⟨.info, "classifier",
    "The signed support has negative terms outside the hull of the positive exponents."⟩

/-- Whether the points of a hull and negative exponents in its space are nonseparable. -/
def isNonseparableIn (cfg : Config) (clock : Clock) (hull : Polytope)
    (negative : List (List Int)) (p : Configuration.Programs := .exact)
    (program : CoordinateProgram := numericCoordinates)
    (facets : Polytope.FacetProgram := Polytope.facetSimplices) : Log × Except Error Bool :=
  if !hull.isFull then
    (if cfg.verbose then [⟨.warning, "classifier",
      "Convex hull of positive exponents is not full dimensional."⟩] else [], .ok false)
  else
    let outside : Except Error (List Facet × List (List Int)) :=
      if negative.isEmpty then .ok ([], [])
      else (hull.facets facets).map fun fs => (fs, negative.filter fun b => !strictlyInside fs b)
    match outside with
    | .error e => ([], .error e)
    | .ok (_, []) => searchCells cfg clock hull.ambient hull.points negative p program facets
    | .ok (fs, b :: rest) =>
      (if cfg.verbose then [outsideRecord fs (b :: rest)] else [], .ok false)

/-- Whether positive and negative exponents, rows of length `n`, are nonseparable. -/
def isNonseparable (cfg : Config) (clock : Clock) (n : Nat)
    (positive negative : List (List Int)) (p : Configuration.Programs := .exact)
    (program : CoordinateProgram := numericCoordinates)
    (facets : Polytope.FacetProgram := Polytope.facetSimplices) : Log × Except Error Bool :=
  isNonseparableIn cfg clock (Polytope.ofPoints n positive) negative p program facets

def isNonseparableGrid (cfg : Config) (clock : Clock) (positive negative : Except Error Grid)
    (p : Configuration.Programs := .exact) (program : CoordinateProgram := numericCoordinates)
    (facets : Polytope.FacetProgram := Polytope.facetSimplices) : Log × Except Error Bool :=
  let read : Except Error (Option (Polytope × List (List Int))) := do
    let g ← positive
    let h ← negative
    if g.entries.isEmpty then .ok none
    else
      let width := match g.shape with
        | _ :: width :: _ => width
        | _ => g.entries.length
      let rows ← h.reshape width
      .ok (some (← Polytope.ofGrid g, rows))
  match read with
  | .error e => ([], .error e)
  | .ok none => ([], .ok false)
  | .ok (some (hull, negative)) => isNonseparableIn cfg clock hull negative p program facets

/-- What a caller may set instead of the options; an absent value leaves the option. -/
structure Overrides where
  tol : Value
  verbose : Value
  limit : Value
  budget : Value

def configOf (o : Options) (chosen : Overrides) : Config where
  tol := chosen.tol.getD (.real o.tol)
  verbose := (chosen.verbose.getD o.verbose).holds
  bounds := ⟨chosen.limit.getD (.real o.limit), chosen.budget.getD (o.budget.elim .absent .real)⟩

def isNonseparableSupport {K : Type} [Exact K] (cfg : Config) (clock : Clock) (s : Support K)
    (p : Configuration.Programs := .exact) (program : CoordinateProgram := numericCoordinates)
    (facets : Polytope.FacetProgram := Polytope.facetSimplices) : Log × Except Error Bool :=
  match s.checked with
  | .error e => ([], .error e)
  | .ok s =>
    if s.positiveExponents.isEmpty then ([], .ok false)
    else isNonseparable cfg clock s.dimension s.positiveExponents s.negativeExponents p program
      facets

end Separation

end Orthant
