import Orthant.Lattice.Cast
import Orthant.Polytope.Facets

/-! # Interior lattice points

Membership of points that are given as values, and the sweep that lists all interior lattice points
in lexicographic order.
-/

namespace Orthant

namespace Polytope

def between (lo hi : Int) : List Int :=
  (List.range (hi - lo - 1).toNat).map fun (k : Nat) => lo + 1 + (k : Int)

/-- An inequality while a point is built: the coefficients to come, the sum so far, the offset. -/
structure Partial where
  normal : List Int
  sum : Int
  offset : Int

def Partial.advance (x : Int) (f : Partial) : Partial :=
  ⟨f.normal.tail, f.sum + f.normal.headD 0 * x, f.offset⟩

/-- The points of a box, given by its sides, that satisfy all inequalities strictly. -/
def sweep : List (Int × Int) → List Partial → List (List Int)
  | [], fs => if fs.all (fun f => decide (wrap f.sum < f.offset)) then [[]] else []
  | (lo, hi) :: sides, fs =>
    (between lo hi).flatMap fun x =>
      (sweep sides (fs.map (Partial.advance x))).map (x :: ·)

def sides (p : Polytope) : List (Int × Int) :=
  (List.range p.ambient).map fun i =>
    let xs := p.coordinates i
    (minimum xs, maximum xs)

/-- The interior lattice points. Extreme values of a coordinate lie on the boundary. -/
def interiorPoints (p : Polytope) (fs : List Facet) : List (List Int) :=
  sweep p.sides (fs.map fun f => ⟨f.normal, 0, f.offset⟩)

def columnsOf (width : Nat) (rows : List (List Int)) : List (List Int) :=
  (List.range width).map fun j => rows.map fun r => r.getD j 0

/-- The offsets that the values of a column are compared with: one column meets all offsets, as many
columns as there are facets meet one each. -/
def offsetsFor (fs : List Facet) (width : Nat) : Except Error (List (List Int)) :=
  let offsets := fs.map Facet.offset
  if width = 1 then .ok [offsets]
  else if width = fs.length then .ok (offsets.map fun b => [b])
  else if fs.length = 1 then .ok (List.replicate width offsets)
  else fail .value

/-- The values of all facets at the columns of stacked matrices, with the offsets that they are
compared with. -/
def stackedPairs (fs : List Facet) (height width : Nat) (entries : List Int) :
    Except Error (List (Int × Int)) := do
  let offsets ← offsetsFor fs width
  let size := height * width
  let blocks := chunks size entries (entries.length / max size 1)
  .ok (blocks.flatMap fun block =>
    ((columnsOf width (chunks width block height)).zip offsets).flatMap fun c =>
      fs.flatMap fun f => c.2.map fun b => (dotWord f.normal c.1, b))

/-- The values of all facets at a grid of points, with the offsets that they are compared with. A
single point meets each facet's own offset. -/
def queryPairs (p : Polytope) (fs : List Facet) (g : Grid) : Except Error (List (Int × Int)) :=
  match g.shape.reverse with
  | [n] =>
    if n = p.ambient then .ok (fs.map fun f => (dotWord f.normal g.entries, f.offset))
    else fail .value
  | width :: height :: _ =>
    if height = p.ambient then stackedPairs fs height width g.entries else fail .value
  | [] => fail .value

def isStrictlyInside (p : Polytope) (fs : List Facet) (g : Grid) : Except Error Bool := do
  .ok ((← p.queryPairs fs g).all fun v => decide (v.1 < v.2))

def containsStrictly (p : Polytope) (fs : Except Error (List Facet)) (v : Value) :
    Except Error Bool := do
  let fs ← fs
  p.isStrictlyInside fs (← v.toGrid)

/-- Whether a point satisfies all inequalities and one with equality. -/
def meetsBoundary (p : Polytope) (fs : Except Error (List Facet)) (v : Value) :
    Except Error Bool := do
  let fs ← fs
  let pairs ← p.queryPairs fs (← v.toGrid)
  .ok ((pairs.all fun v => decide (v.1 ≤ v.2)) && pairs.any fun v => v.1 == v.2)

/-- Whether a point is an interior lattice point. Its entries are brought to one kind first. -/
def isInterior (p : Polytope) (fs : Except Error (List Facet)) (v : Value) :
    Except Error Bool := do
  if ← v.allIntegral then
    let g ← v.castGrid
    p.isStrictlyInside (← fs) g
  else .ok false

end Polytope

end Orthant
