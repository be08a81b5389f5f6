import Orthant.Linear.Simplex
import Orthant.Triangulation.Configuration

/-! # Walls and flips

The heights that induce a triangulation form an open cone. It is cut out by the folding forms of the
interior ridges and of the unused points. A form that bounds the cone is a wall, and the
triangulation behind it is the flip on the form's circuit.
-/

namespace Orthant

namespace Configuration

def weightAt (coordinates : Vec) (σ : Cell) (i : Nat) : Rat :=
  (coordinates.zip σ).foldl (fun acc p => if p.2 = i then acc + p.1 else acc) 0

def rawForm (c : Configuration) (coordinates : Vec) (σ : Cell) (j : Nat) : Vec :=
  (List.range c.size).map fun i => (if i = j then 1 else 0) - weightAt coordinates σ i

def absRat (q : Rat) : Rat := if q < 0 then -q else q

/-- The folding form of a cell and a point, scaled so that its first nonzero entry is 1 or -1. -/
def form (c : Configuration) (σ : Cell) (j : Nat) : Except Error Vec := do
  let g := c.rawForm (← c.barycentric σ j) σ j
  match g.find? (· ≠ 0) with
  | none => fail .exhausted
  | some lead => .ok (g.map (· / absRat lead))

def containing (c : Configuration) (j : Nat) : Triangulation → Except Error Cell
  | [] => .error (.notCovered j)
  | σ :: rest => do
    let coordinates ← c.barycentric σ j
    if coordinates.all (0 ≤ ·) then .ok σ else containing c j rest

def addForm (forms : List Vec) (g : Vec) : List Vec :=
  if forms.contains g then forms else forms ++ [g]

def addRidge (c : Configuration) (forms : List Vec) (r : Ridge) : Except Error (List Vec) :=
  match r.2 with
  | [(σ, _), (_, apex)] => do .ok (addForm forms (← c.form σ apex))
  | _ => .ok forms

def addUnused (c : Configuration) (t : Triangulation) (forms : List Vec) (j : Nat) :
    Except Error (List Vec) :=
  if t.uses j then .ok forms
  else do .ok (addForm forms (← c.form (← c.containing j t) j))

/-- The distinct folding forms: ridges in their order, then unused points. -/
def walls (c : Configuration) (t : Triangulation) : Except Error (List Vec) := do
  let forms ← t.ridges.foldlM c.addRidge []
  (List.range c.size).foldlM (c.addUnused t) forms

end Configuration

namespace Triangulation

def positivePlaces (wall : Vec) : List Nat :=
  (List.range wall.length).filter fun i => decide (0 < entry wall i)

def negativePlaces (wall : Vec) : List Nat :=
  (List.range wall.length).filter fun i => decide (entry wall i < 0)

def face (wall : Vec) (z : Nat) : List Nat :=
  (List.range wall.length).filter fun i => entry wall i != 0 && i != z

end Triangulation

namespace Cells

variable {α : Type} [DecidableEq α] [LT α] [DecidableLT α]

def includes (σ places : List α) : Bool := places.all σ.contains

/-- A face together with a link, in rising order. -/
def join (face link : List α) : List α :=
  (face ++ link.filter fun i => !face.contains i).mergeSort fun a b => !decide (b < a)

def links (cells faces : List (List α)) : List (List α) :=
  cells.flatMap fun σ => faces.filterMap fun f =>
    if includes σ f then some (σ.filter fun i => !f.contains i) else none

/-- The cells around some faces give way to the joins of their links with other faces. -/
def exchange (cells removed added : List (List α)) : List (List α) :=
  let kept := cells.filter fun σ => !removed.any (includes σ)
  ofList (kept ++ added.flatMap fun f => (links cells removed).map (join f))

end Cells

namespace Triangulation

def upperFaces (wall : Vec) : List (List Nat) := (positivePlaces wall).map (face wall)

def lowerFaces (wall : Vec) : List (List Nat) := (negativePlaces wall).map (face wall)

def flip (t : Triangulation) (wall : Vec) : Triangulation :=
  Cells.exchange t (upperFaces wall) (lowerFaces wall)

end Triangulation

namespace Configuration

/-- A proposed point of a wall, with the least value of the other forms there. -/
structure Proposal where
  point : Vec
  slack : Rat

/-- The proposal with a coordinate for each of `m` points. -/
def Proposal.within (m : Nat) (p : Proposal) : Proposal :=
  ⟨(List.range m).map (entry p.point), p.slack⟩

def wallSlack : Rat := scaleTen 1 (-9)

def snap (wall w : Vec) : Vec := subScaled w (dot wall w / dot wall wall) wall

/-- Accepts a proposal when the point moved onto the wall is strictly inside all other forms. -/
def checkWallPoint (wall : Vec) (others : List Vec) (p : Option Proposal) : Option Vec :=
  match p with
  | none => none
  | some p =>
    if p.slack ≤ wallSlack then none
    else
      let w := snap wall p.point
      if others.any fun g => dot g w ≤ 0 then none else some w

/-- The program dual to "largest slack of the other forms over the wall within the unit cube". Its
columns are the other forms with a 1 below, the slack of the slack, the wall twice, and the two
sides of the cube. -/
def wallTableau (m : Nat) (wall : Vec) (others : List Vec) : Simplex.Tableau :=
  let k := others.length
  let unit (i j : Nat) (v : Rat) : Rat := if i = j then v else 0
  let row (i : Nat) : Array Rat :=
    (others.map (fun g => entry g i) ++ [0, entry wall i, -entry wall i] ++
      (List.range m).map (fun j => unit i j (-1)) ++
      (List.range m).map (fun j => unit i j 1) ++ [0]).toArray
  let last : Array Rat :=
    (List.replicate k (1 : Rat) ++ [1, 0, 0] ++ List.replicate (2 * m) 0 ++ [1]).toArray
  let rows := ((List.range m).map row).toArray.push last
  let basis := ((List.range m).map fun i => k + 3 + m + i).toArray.push k
  let cost := (List.replicate k (0 : Rat) ++ [1, 0, 0] ++ List.replicate (2 * m) 1 ++ [0]).toArray
  ⟨rows, Simplex.reduceCost rows basis cost, basis⟩

def proposeWallPoint (m : Nat) (wall : Vec) (others : List Vec) : Option Proposal :=
  let k := others.length
  let columns := k + 3 + 2 * m
  let t := Simplex.optimize (wallTableau m wall others) columns (twoPow columns)
  let price (j : Nat) : Rat := 1 - Simplex.coord t.cost j
  some ⟨(List.range m).map fun i => -price (k + 3 + m + i), price k⟩

/-- A program that proposes a point of a wall, for a number of points, the wall and the other
forms. -/
abbrev WallProgram := Nat → Vec → List Vec → Option Proposal

/-- A point inside the wall, none if the wall does not bound the cone. -/
def wallPoint (c : Configuration) (wall : Vec) (others : List Vec)
    (program : WallProgram := proposeWallPoint) : Option Vec :=
  checkWallPoint wall others ((program c.size wall others).map (Proposal.within c.size))

/-- The programs whose proposals are checked before they are used. -/
structure Programs where
  hull : HullProgram
  wall : WallProgram

def Programs.exact : Programs := ⟨proposeCells, proposeWallPoint⟩

/-- How often the step across a wall is halved. -/
def maxHalvings : Nat := 96

/-- Whether some step across the wall, halved again and again, reaches the inside of all forms. -/
def crosses (w wall : Vec) (forms : List Vec) (eps : Rat) : Nat → Bool
  | 0 => false
  | fuel + 1 =>
    let across := subScaled w eps wall
    (forms.all fun g => decide (0 < dot g across)) || crosses w wall forms (eps / 2) fuel

/-- The triangulation across one wall; none where the form does not bound the cone. -/
def across (c : Configuration) (t : Triangulation) (forms : List Vec) (k : Nat) (wall : Vec)
    (p : Programs := .exact) : Except Error (Option Triangulation) :=
  match c.wallPoint wall (forms.eraseIdx k) p.wall with
  | none => .ok none
  | some w => do
    let other := t.flip wall
    let forms ← c.walls other
    if crosses w wall forms (mkRat 1 8) maxHalvings then .ok (some other)
    else .error (.flipNotRegular k t.length)

/-- The triangulations across the walls from a list on, up to the first failure. -/
def acrossAll (c : Configuration) (p : Programs) (t : Triangulation) (forms : List Vec) :
    List (Vec × Nat) → List Triangulation × Option Error
  | [] => ([], none)
  | (wall, k) :: rest =>
    match c.across t forms k wall p with
    | .error e => ([], some e)
    | .ok found =>
      let (ts, e) := acrossAll c p t forms rest
      (found.toList ++ ts, e)

/-- The neighbours of a triangulation in the order of its forms, up to the first failure. -/
def neighbours (c : Configuration) (t : Triangulation) (p : Programs := .exact) :
    List Triangulation × Option Error :=
  match c.walls t with
  | .error e => ([], some e)
  | .ok forms => c.acrossAll p t forms forms.zipIdx

end Configuration

end Orthant
