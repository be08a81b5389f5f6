import Orthant.Linear.Vector

/-! # Rank and kernel

Both go column by column. A row with an entry in the first column is used to clear it from the
others; without such a row the column is free.
-/

namespace Orthant

def headEntry (row : Vec) : Rat := row.headD 0

/-- The first row with an entry in the first column, and the other rows. -/
def splitPivot : List Vec → Option (Vec × List Vec)
  | [] => none
  | r :: rs =>
    if headEntry r = 0 then (splitPivot rs).map fun p => (p.1, r :: p.2) else some (r, rs)

/-- The row without its first column, which the pivot row clears. -/
def clearHead (pivot row : Vec) : Vec :=
  if headEntry row = 0 then row.tail
  else subScaled row.tail (headEntry row / headEntry pivot) pivot.tail

def rank : Nat → List Vec → Nat
  | 0, _ => 0
  | width + 1, rows =>
    match splitPivot rows with
    | none => rank width (rows.map List.tail)
    | some (p, rest) => rank width (rest.map (clearHead p)) + 1

/-- A basis of the vectors that all rows of a given width send to zero. -/
def kernel : Nat → List Vec → List Vec
  | 0, _ => []
  | width + 1, rows =>
    match splitPivot rows with
    | none =>
      (1 :: List.replicate width 0) :: (kernel width (rows.map List.tail)).map (0 :: ·)
    | some (p, rest) =>
      (kernel width (rest.map (clearHead p))).map fun v => (-(dot p.tail v) / headEntry p) :: v

end Orthant
