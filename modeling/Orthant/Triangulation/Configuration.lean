import Orthant.Linear.Inverse
import Orthant.Polytope.Facets

/-! # Point configurations

Cells are sets of places of points. A height vector lifts the points; its regular subdivision
consists of the simplices that no lifted point lies below. When some lifted point lies on the
hyperplane of such a simplex the subdivision is not a triangulation.
-/

namespace Orthant

abbrev Cell := List Nat

/-- Cells in lexicographic order, none twice. -/
abbrev Triangulation := List Cell

structure Configuration where
  points : List (List Int)
  dim : Nat
  facets : List Facet

namespace Configuration

def ofPoints (dim : Nat) (points : List (List Int))
    (facets : Polytope.FacetProgram := Polytope.facetSimplices) : Except Error Configuration := do
  .ok ⟨points, dim, ← (Polytope.ofPoints dim points).facets facets⟩

/-- The configuration of a grid of points. The coordinates of blocks are no numbers unless they have
one entry. -/
def ofGrid (g : Grid) : Except Error Configuration :=
  match g.points?, g.shape.getLastD 0 with
  | some rows, _ => ofPoints (rows.headD []).length rows
  | none, 1 => do
    let p ← Polytope.ofGrid g
    let _ ← p.facets
    fail .value
  | none, _ => fail .kind

def size (c : Configuration) : Nat := c.points.length

def pointAt (c : Configuration) (i : Nat) : List Int := c.points.getD i []

def lifted (c : Configuration) (i : Nat) : Vec := toVec (c.pointAt i) ++ [1]

def vertexMatrix (c : Configuration) (σ : Cell) : List Vec :=
  (List.range c.dim).map (fun r => σ.map fun i => (((c.pointAt i).getD r 0 : Int) : Rat)) ++
    [List.replicate (c.dim + 1) 1]

/-- The matrix of barycentric coordinates, none for a degenerate cell. -/
def inverse (c : Configuration) (σ : Cell) : Option (List Vec) := invert (c.vertexMatrix σ)

def coordinatesBy (c : Configuration) (inv : List Vec) (j : Nat) : Vec :=
  applyRows inv (c.lifted j)

def barycentric (c : Configuration) (σ : Cell) (j : Nat) : Except Error Vec :=
  match c.inverse σ with
  | none => fail .kind
  | some inv => .ok (c.coordinatesBy inv j)

/-- How far the lifted point lies above the hyperplane of the lifted cell. -/
def heightBy (c : Configuration) (inv : List Vec) (σ : Cell) (j : Nat) (w : Vec) : Rat :=
  entry w j - dot (c.coordinatesBy inv j) (σ.map (entry w))

def others (c : Configuration) (σ : Cell) : List Nat :=
  (List.range c.size).filter fun j => !σ.contains j

def simplices (c : Configuration) : List Cell := choices (c.dim + 1) (List.range c.size)

/-- The heights of all other points above a cell, none for a degenerate cell. -/
def heightsAbove (c : Configuration) (w : Vec) (σ : Cell) : Option (List Rat) :=
  (c.inverse σ).map fun inv => (c.others σ).map fun j => c.heightBy inv σ j w

/-- Adds the lower simplices of a list to the cells found; none when one of them is not the only
one of its lifted hyperplane. -/
def lowerCells (c : Configuration) (w : Vec) : List Cell → Option Triangulation
  | [] => some []
  | σ :: rest =>
    match c.heightsAbove w σ with
    | none => lowerCells c w rest
    | some hs =>
      if hs.any (· < 0) then lowerCells c w rest
      else if hs.any (· = 0) then none
      else (lowerCells c w rest).map (σ :: ·)

def subdivision (c : Configuration) (w : Vec) : Option Triangulation := c.lowerCells w c.simplices

end Configuration

namespace Cells

variable {α : Type} [DecidableEq α] [LT α] [DecidableLT α]

/-- Adds a cell with its vertex off a ridge to the sides of that ridge. -/
def addSide (ridge : List α) (side : List α × α) :
    List (List α × List (List α × α)) → List (List α × List (List α × α))
  | [] => [(ridge, [side])]
  | r :: rs => if r.1 = ridge then (r.1, r.2 ++ [side]) :: rs else r :: addSide ridge side rs

/-- The ridges of cells in the order in which the cells meet them, each with the cells around it. -/
def ridges (cells : List (List α)) : List (List α × List (List α × α)) :=
  cells.foldl (fun acc σ => σ.foldl (fun acc a => addSide (σ.filter (· != a)) (σ, a) acc) acc) []

def le : List α → List α → Bool
  | [], _ => true
  | _ :: _, [] => false
  | a :: as, b :: bs => if a = b then le as bs else decide (a < b)

def insert (σ : List α) : List (List α) → List (List α)
  | [] => [σ]
  | τ :: rest => if σ = τ then τ :: rest else if le σ τ then σ :: τ :: rest
      else τ :: insert σ rest

def ofList (cells : List (List α)) : List (List α) := cells.foldl (fun acc σ => insert σ acc) []

end Cells

abbrev Ridge := Cell × List (Cell × Nat)

namespace Triangulation

def ridges (t : Triangulation) : List Ridge := Cells.ridges t

def uses (t : Triangulation) (j : Nat) : Bool := t.any fun σ => σ.contains j

end Triangulation

namespace Configuration

def onHull (c : Configuration) (ridge : Cell) : Bool :=
  c.facets.any fun f => ridge.all fun i => dotInt f.normal (c.pointAt i) == f.offset

/-- Accepts proposed cells as the regular triangulation at `w` when each lies strictly below all
other points and no ridge inside the hull is missing a side. -/
def checkCells (c : Configuration) (w : Vec) (cells : Triangulation) : Option Triangulation :=
  if cells.isEmpty then none
  else if cells.any fun σ => match c.heightsAbove w σ with
      | none => true
      | some hs => hs.any (· ≤ 0) then none
  else if (Triangulation.ridges cells).any fun r =>
      decide (2 < r.2.length) || (r.2.length == 1 && !c.onHull r.1) then none
  else some cells

/-- Sets of places that can be the vertices of a simplex. -/
abbrev Proposed (c : Configuration) :=
  { σ : Cell // σ.length = c.dim + 1 ∧ ∀ i ∈ σ, i < c.size }

/-- A program that proposes the simplices of the lower hull of points lifted to heights. -/
abbrev HullProgram := (c : Configuration) → Vec → List c.Proposed

/-- The simplices that no lifted point lies below. A hull needs two points more than the
dimension. -/
def proposeCells : HullProgram := fun c w =>
  if c.size < c.dim + 2 then []
  else c.simplices.filterMap fun σ =>
    if h : σ.length = c.dim + 1 ∧ ∀ i ∈ σ, i < c.size then
      match c.heightsAbove w σ with
      | none => none
      | some hs => if hs.all (0 ≤ ·) then some ⟨σ, h⟩ else none
    else none

def proposedCells (c : Configuration) (σs : List c.Proposed) : Triangulation :=
  Cells.ofList (σs.map fun σ => σ.1.mergeSort fun a b => decide (a ≤ b))

/-- The regular triangulation at `w` from proposed cells. -/
def lowerHull (c : Configuration) (w : Vec) (hull : HullProgram := proposeCells) :
    Option Triangulation :=
  if w.length = c.size then c.checkCells w (c.proposedCells (hull c w)) else none

end Configuration

end Orthant
