import Orthant.Lattice.Grid
import Orthant.Linear.Spectrum

/-! # Simplices that separate

A simplex separates points when it contains some of them but not all, and those that it contains do
not lie on one common facet. Containment is by barycentric coordinates within a tolerance.
-/

namespace Orthant

namespace Separation

def liftedMatrix (n : Nat) (vertices : List Vec) : List Vec :=
  columns vertices n ++ [List.replicate vertices.length 1]

/-- The matrix of barycentric coordinates of vertices in space of dimension `n`. -/
def barycentricInverse (n : Nat) (vertices : List Vec) : Except Error (List Vec) :=
  if vertices.isEmpty ∨ vertices.length ≠ n + 1 then fail .singular
  else match invert (liftedMatrix n vertices) with
    | none => fail .singular
    | some inv => .ok inv

abbrev Point := List (Option Rat)

def pointOf (x : List Int) : Point := x.map fun (a : Int) => some (a : Rat)

/-- Barycentric coordinates of a point of the right length; a point that is not finite has none. -/
def coordinates (n : Nat) (inverse : List Vec) (point : Point) : Except Error (Option Vec) :=
  if point.length = n then
    .ok ((point.mapM id).map fun x => applyRows inverse (x ++ [1]))
  else fail .value

/-- A bound for coordinates that count as zero: a real number, or a complex one, which is compared by
its real part first. -/
inductive Tolerance
  | real (x : Quantity)
  | complex (z : Complex)

namespace Tolerance

def ofValue : Value → Except Error Tolerance
  | .real x => .ok (real x)
  | .complex z => .ok (complex z)
  | _ => fail .kind

def reaches (tol : Tolerance) (r : Rat) : Bool :=
  match tol with
  | real x => x.atLeast r
  | complex z =>
    match (Quantity.double z.re).compare? r with
    | some .gt => true
    | some .eq => (Quantity.double z.im).atLeast 0
    | _ => false

end Tolerance

/-- Whether all coordinates are at least minus the tolerance. -/
def contains (tol : Tolerance) (coordinates : Vec) : Bool :=
  coordinates.all fun l => tol.reaches (-l)

/-- Whether a coordinate is within the tolerance of zero. -/
def vanishes (tol : Tolerance) (l : Rat) : Bool := tol.reaches l && tol.reaches (-l)

def shareFacet (tol : Tolerance) (k : Nat) (points : List Vec) : Bool :=
  (List.range k).any fun i => points.all fun l => vanishes tol (entry l i)

/-- Whether coordinates of all points show a separation. A point without coordinates is not
contained. -/
def separatesBy (tol : Tolerance) (k : Nat) (points : List (Option Vec)) : Bool :=
  let contained := (points.filterMap id).filter (contains tol)
  !contained.isEmpty && contained.length != points.length && !shareFacet tol k contained

/-- A program for the simplex on vertices in space of dimension `n`: none for a degenerate one, and
otherwise the coordinates of each point. -/
abbrev CoordinateProgram :=
  Nat → List Vec → Except Error (Option (Point → Except Error (Option Vec)))

abbrev RankTest := Nat → List Vec → Bool

def exactRank : RankTest := fun n vertices =>
  decide (rank vertices.length (liftedMatrix n vertices) = vertices.length)

def numericRank : RankTest := fun n vertices =>
  hasFullRank (liftedMatrix n vertices) vertices.length

/-- Coordinates by the exact inverse, for vertices that pass the test of their rank. -/
def coordinateProgram (full : RankTest) : CoordinateProgram := fun n vertices =>
  if full n vertices then do
    let inverse ← barycentricInverse n vertices
    .ok (some (coordinates n inverse))
  else .ok none

def exactCoordinates : CoordinateProgram := coordinateProgram exactRank

def numericCoordinates : CoordinateProgram := coordinateProgram numericRank

/-- Whether the simplex on vertices in space of dimension `n` separates the points. A degenerate one
does not. The tolerance is looked at when the first point has its coordinates. -/
def separates (tol : Except Error Tolerance) (n : Nat) (vertices : List Vec)
    (points : Except Error (List (Except Error Point)))
    (program : CoordinateProgram := numericCoordinates) : Except Error Bool :=
  if vertices.isEmpty then fail .singular
  else do
    match ← program n vertices with
    | none => .ok false
    | some locate =>
      match ← points with
      | [] => .ok false
      | p :: ps =>
        let first ← locate (← p)
        let tol ← tol
        let rest ← ps.mapM fun p => do locate (← p)
        .ok (separatesBy tol vertices.length (first :: rest))

/-! ## Reading points -/

def readCoordinate : Value → Except Error Double
  | .absent => .ok .nan
  | v => v.toDouble

/-- The coordinates of a point; all entries of nested lists count. -/
def readPoint (v : Value) : Except Error (List Double) :=
  match v.shape? with
  | none => fail .value
  | some _ => v.leaves.mapM readCoordinate

/-- Rows of coordinates with their length; a row of numbers is points of the line. -/
def readRows (v : Value) : Except Error (Nat × List (List Double)) := do
  let xs ← readPoint v
  match v.shape? with
  | some [_] => .ok (1, xs.map fun x => [x])
  | some [count, width] => .ok (width, chunks width xs count)
  | some [] => fail .kind
  | _ => fail .value

/-- The values that a value is a sequence of; the characters of a text are texts. -/
def readItems : Value → Except Error (List Value)
  | .list xs => .ok xs
  | .text s => .ok (s.toList.map fun c => .text (String.singleton c))
  | _ => fail .kind

/-- Whether a simplex given by values separates points given by values. The rank of vertices that are
not finite cannot be found. -/
def separatesValues (tol vertices points : Value) : Except Error Bool := do
  let (n, rows) ← readRows vertices
  match rows.mapM fun r => r.mapM Double.value? with
  | none => fail .singular
  | some rows =>
    separates (Tolerance.ofValue tol) n rows ((readItems points).map fun vs =>
      vs.map fun v => (readPoint v).map fun xs => xs.map Double.value?)

end Separation

end Orthant
