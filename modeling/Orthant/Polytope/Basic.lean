import Orthant.Lattice.Grid
import Orthant.Linear.Elimination

/-! # Lattice polytopes

A polytope is the convex hull of finitely many lattice points. Its dimension is the rank of the
differences to the first point, taken as words.
-/

namespace Orthant

def toVec (p : List Int) : Vec := p.map fun (x : Int) => (x : Rat)

def differences : List (List Int) → List (List Int)
  | [] => []
  | p :: ps => ps.map fun q => List.zipWith (fun x y => wrap (x - y)) q p

def affineDimension (points : List (List Int)) : Int :=
  match points with
  | [] => -1
  | p :: _ => rank p.length ((differences points).map toVec)

/-- The dimension of a grid of blocks; more than one of them have no differences of numbers. -/
def blockDimension (count : Nat) : Except Error Int := if count ≤ 1 then .ok 0 else fail .part

/-- The dimension of a grid of points; a row of words is points of the line. -/
def Grid.affineDimension (g : Grid) : Except Error Int :=
  match g.shape with
  | [] => fail .kind
  | [_] => .ok (Orthant.affineDimension (g.entries.map fun x => [x]))
  | [count, width] => .ok (Orthant.affineDimension (chunks width g.entries count))
  | count :: _ => blockDimension count

structure Polytope where
  points : List (List Int)
  ambient : Nat
  dim : Int

namespace Polytope

def ofPoints (ambient : Nat) (points : List (List Int)) : Polytope :=
  ⟨points, ambient, affineDimension points⟩

/-- The hull of a grid. A block counts as one point, which has as many coordinates as the block has
rows. -/
def ofGrid (g : Grid) : Except Error Polytope :=
  match g.points?, g.shape with
  | some rows, _ => .ok (ofPoints (rows.headD []).length rows)
  | none, count :: ambient :: _ => do .ok ⟨[g.entries], ambient, ← blockDimension count⟩
  | none, _ => fail .value

def isFull (p : Polytope) : Bool := p.dim == p.ambient

def text (p : Polytope) : String :=
  "LatticePolytope(" ++ toString p.points.length ++ " points, dim=" ++ toString p.dim ++
    ", ambient_dim=" ++ toString p.ambient ++ ")"

end Polytope

end Orthant
