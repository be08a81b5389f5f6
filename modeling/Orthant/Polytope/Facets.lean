import Orthant.Polytope.Basic

/-! # Facets

A facet is a primitive integer inequality `normal * x ≤ offset`. Candidates are sets of points; each
is turned into the hyperplane through it and kept if all points lie on one side. Products are taken
as words.
-/

namespace Orthant

/-- The primitive integer vector on the ray of a rational vector. -/
def primitive (v : Vec) : List Int :=
  let l := v.foldl (fun acc q => acc.lcm q.den) 1
  let ints := v.map fun q => q.num * ((l / q.den : Nat) : Int)
  let g := ints.foldl (fun acc n => acc.gcd n.natAbs) 0
  if g = 0 then ints else ints.map fun n => n / (g : Int)

structure Facet where
  normal : List Int
  offset : Int
  deriving DecidableEq

namespace Facet

def neg (f : Facet) : Facet := ⟨f.normal.map fun x => -x, -f.offset⟩

def stored (f : Facet) : Except Error Facet := do
  let normal ← f.normal.mapM toWord
  let offset ← toWord f.offset
  .ok ⟨normal, offset⟩

def through? (n : Nat) (points : List (List Int)) : Option Facet :=
  match kernel (n + 1) (points.map fun p => toVec p ++ [-1]) with
  | [v] =>
    let ints := primitive v
    some ⟨ints.take n, ints.getD n 0⟩
  | _ => none

/-- The hyperplane turned so that all points lie on its lower side. -/
def supporting (points : List (List Int)) (simplex : List Nat) (f : Facet) :
    Except Error Facet := do
  let normal ← f.normal.mapM toWord
  let values := points.map (dotWord normal)
  if values.all (· ≤ f.offset) then .ok f
  else if values.all (f.offset ≤ ·) then .ok f.neg
  else .error (.notSupporting simplex)

end Facet

namespace Polytope

def pick (points : List (List Int)) (simplex : List Nat) : List (List Int) :=
  simplex.map fun i => points.getD i []

/-- Whether all points lie on one side of the hyperplane through a set of them. -/
def supports (n : Nat) (points : List (List Int)) (simplex : List Nat) : Bool :=
  match Facet.through? n (pick points simplex) with
  | none => false
  | some f =>
    points.all (fun p => dotInt f.normal p ≤ f.offset) ||
      points.all (fun p => f.offset ≤ dotInt f.normal p)

/-- Every set of `n` points that spans a supporting hyperplane. -/
def facetSimplices (n : Nat) (points : List (List Int)) : List (List Nat) :=
  (choices n (List.range points.length)).filter (supports n points)

/-- Adds the facet through a set of points to those found before. -/
def addThrough (p : Polytope) (acc : List Facet) (s : List Nat) : Except Error (List Facet) :=
  match Facet.through? p.ambient (pick p.points s) with
  | none => .ok acc
  | some f => do
    let f ← f.supporting p.points s
    .ok (if acc.contains f then acc else acc ++ [f])

def facetsThrough (p : Polytope) (simplices : List (List Nat)) : Except Error (List Facet) := do
  let found ← simplices.foldlM p.addThrough []
  found.mapM Facet.stored

def coordinates (p : Polytope) (i : Nat) : List Int := p.points.map fun q => q.getD i 0

def minimum (xs : List Int) : Int := xs.foldl min (xs.headD 0)

def maximum (xs : List Int) : Int := xs.foldl max (xs.headD 0)

/-- A program that proposes sets of `n` points, each on a facet of the hull of points in space of
dimension `n`. -/
abbrev FacetProgram := Nat → List (List Int) → List (List Nat)

/-- The facets of a full-dimensional polytope, through the sets of points that a program proposes. On
the line they are the two ends. -/
def facets (p : Polytope) (program : FacetProgram := facetSimplices) :
    Except Error (List Facet) :=
  if !p.isFull then .error (.noFacets p.dim p.ambient)
  else if p.ambient = 0 then fail .value
  else if p.ambient = 1 then
    let xs := p.coordinates 0
    [(⟨[1], maximum xs⟩ : Facet), ⟨[-1], -minimum xs⟩].mapM Facet.stored
  else p.facetsThrough (program p.ambient p.points)

end Polytope

def strictlyInside (fs : List Facet) (x : List Int) : Bool :=
  fs.all fun f => decide (dotWord f.normal x < f.offset)

/-- Whether a point satisfies all inequalities and one with equality. -/
def onBoundary (fs : List Facet) (x : List Int) : Bool :=
  (fs.all fun f => decide (dotWord f.normal x ≤ f.offset)) &&
    fs.any fun f => dotWord f.normal x == f.offset

end Orthant
