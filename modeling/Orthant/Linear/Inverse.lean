import Orthant.Linear.Vector

/-! # Inverse matrices

Gauss-Jordan elimination beside the identity: for each column a pivot row is swapped into place,
normalized, and cleared from all other rows.
-/

namespace Orthant

def identityRow (n i : Nat) : Vec := (List.range n).map fun j => if i = j then 1 else 0

def augment (m : List Vec) : List Vec :=
  m.zipIdx.map fun r => r.1 ++ identityRow m.length r.2

def rowAt (a : List Vec) (i : Nat) : Vec := a.getD i []

/-- The first row from `col` on with an entry in that column. -/
def pivotRow? (a : List Vec) (col : Nat) : Option Nat :=
  (List.range a.length).find? fun r => decide (col ≤ r) && entry (rowAt a r) col != 0

def swapRows (a : List Vec) (i j : Nat) : List Vec := (a.set i (rowAt a j)).set j (rowAt a i)

def normalizeRow (row : Vec) (col : Nat) : Vec := scaleVec (1 / entry row col) row

/-- Subtracts the pivot row from the others, so that its column is zero there. -/
def clearColumn (a : List Vec) (col : Nat) (pivot : Vec) : List Vec :=
  a.zipIdx.map fun r =>
    if r.2 = col then pivot
    else if entry r.1 col = 0 then r.1
    else subScaled r.1 (entry r.1 col) pivot

def eliminateColumn (a : List Vec) (col : Nat) : Option (List Vec) := do
  let r ← pivotRow? a col
  let swapped := swapRows a col r
  some (clearColumn swapped col (normalizeRow (rowAt swapped col) col))

def invert (m : List Vec) : Option (List Vec) := do
  let a ← (List.range m.length).foldlM eliminateColumn (augment m)
  some (a.map fun row => row.drop m.length)

end Orthant
