import Orthant.Triangulation.Walls

/-! # Questions about places

The operations of a configuration for places given as integers. A negative place counts from the
end, and one that is out of range is refused.
-/

namespace Orthant

def place (size : Nat) (i : Int) : Except Error Nat :=
  if 0 ≤ i ∧ i < size then .ok i.toNat
  else if i < 0 ∧ -(size : Int) ≤ i then .ok (i + size).toNat
  else fail .index

namespace Configuration

def places (c : Configuration) (is : List Int) : Except Error (List Nat) := is.mapM (place c.size)

def inverseAt (c : Configuration) (σ : List Int) : Except Error (Option (List Vec)) := do
  .ok (c.inverse (← c.places σ))

def barycentricAt (c : Configuration) (σ : List Int) (j : Int) : Except Error Vec := do
  let j ← place c.size j
  c.barycentric (← c.places σ) j

def heightAt (c : Configuration) (σ : List Int) (j : Int) (w : Vec) : Except Error Rat := do
  let above ← place w.length j
  let coordinates ← c.barycentricAt σ j
  let below ← σ.mapM (place w.length)
  .ok (entry w above - dot coordinates (below.map (entry w)))

def formAt (c : Configuration) (σ : List Int) (j : Int) : Except Error Vec := do
  let j ← place c.size j
  c.form (← c.places σ) j

/-- Whether all points of a ridge lie on a facet; the first one that does not decides. -/
def liesOn (c : Configuration) (f : Facet) : List Int → Except Error Bool
  | [] => .ok true
  | i :: is => do
    let i ← place c.size i
    if dotInt f.normal (c.pointAt i) == f.offset then liesOn c f is else .ok false

def onHullAt (c : Configuration) (ridge : List Int) : Except Error Bool :=
  c.facets.foldlM (fun found f => if found then .ok true else c.liesOn f ridge) false

def subdivisionAt (c : Configuration) (w : Vec) : Except Error (Option Triangulation) :=
  if w.length < c.size ∧ c.dim + 1 < c.size then fail .index else .ok (c.subdivision w)

def lowerHullAt (c : Configuration) (w : Vec) : Except Error (Option Triangulation) := do
  let _ ← w.mapM toDouble
  if w.isEmpty then fail .value else .ok (c.lowerHull w)

/-! ## Given cells -/

/-- The first cell that contains a point; the place is looked up only when there is a cell. -/
def containingAt (c : Configuration) (j : Int) : List (List Int) → Except Error (List Int)
  | [] => .error (.notCovered j)
  | σ :: rest => do
    let coordinates ← c.barycentricAt σ j
    if coordinates.all (0 ≤ ·) then .ok σ else containingAt c j rest

def addRidgeAt (c : Configuration) (forms : List Vec)
    (r : List Int × List (List Int × Int)) : Except Error (List Vec) :=
  match r.2 with
  | [(σ, _), (_, apex)] => do .ok (addForm forms (← c.formAt σ apex))
  | _ => .ok forms

def addUnusedAt (c : Configuration) (cells : List (List Int)) (forms : List Vec) (j : Nat) :
    Except Error (List Vec) :=
  if cells.any fun σ => σ.contains (j : Int) then .ok forms
  else do .ok (addForm forms (← c.formAt (← c.containingAt j cells) j))

def wallsAt (c : Configuration) (cells : List (List Int)) : Except Error (List Vec) := do
  let forms ← (Cells.ridges cells).foldlM c.addRidgeAt []
  (List.range c.size).foldlM (c.addUnusedAt cells) forms

def boundingWalls (c : Configuration) (cells : List (List Int)) : Except Error (List Bool) := do
  let forms ← c.wallsAt cells
  .ok (forms.zipIdx.map fun f => (c.wallPoint f.1 (forms.eraseIdx f.2)).isSome)

def ofPlaces (faces : List (List Nat)) : List (List Int) := faces.map fun f => f.map Int.ofNat

def flipCells (cells : List (List Int)) (wall : Vec) : List (List Int) :=
  Cells.exchange cells (ofPlaces (Triangulation.upperFaces wall))
    (ofPlaces (Triangulation.lowerFaces wall))

def flipAt (c : Configuration) (cells : List (List Int)) (k : Int) :
    Except Error (List (List Int)) := do
  let forms ← c.wallsAt cells
  .ok (flipCells cells (forms.getD (← place forms.length k) []))

/-- The cells across one wall; none where the form does not bound the cone. -/
def acrossAt (c : Configuration) (cells : List (List Int)) (forms : List Vec) (k : Nat)
    (wall : Vec) : Except Error (List (List (List Int))) :=
  match c.wallPoint wall (forms.eraseIdx k) with
  | none => .ok []
  | some w => do
    let other := flipCells cells wall
    let forms ← c.wallsAt other
    if crosses w wall forms (mkRat 1 8) maxHalvings then .ok [other]
    else .error (.flipNotRegular k cells.length)

def neighboursAt (c : Configuration) (cells : List (List Int)) :
    Except Error (List (List (List Int))) := do
  let forms ← c.wallsAt cells
  .ok (← forms.zipIdx.mapM fun f => c.acrossAt cells forms f.2 f.1).flatten

end Configuration

end Orthant
