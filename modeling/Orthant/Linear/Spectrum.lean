import Orthant.Linear.Elimination
import Orthant.Linear.Inverse
import Orthant.Number.Rounding

/-! # Numeric rank

The singular values of a matrix are the square roots of the eigenvalues of the products of its
columns. Numerically the rank is full when the least one is above the largest one times the precision
of doubles and the larger number of rows and columns.
-/

namespace Orthant

def gram (columns : List Vec) : List Vec := columns.map (applyRows columns)

def diagonalSum (m : List Vec) : Rat := m.zipIdx.foldr (fun r s => entry r.1 r.2 + s) 0

/-- A multiple of the identity minus a multiple of the matrix. -/
def pencil (s f : Rat) (m : List Vec) : List Vec :=
  m.zipIdx.map fun r => subScaled (scaleVec s (identityRow m.length r.2)) f r.1

def positivePivots : Nat → List Vec → Bool
  | n + 1, row :: rows =>
    decide (0 < headEntry row) && positivePivots n (rows.map (clearHead row))
  | _, _ => true

/-- Bisects an interval whose upper end is above all eigenvalues. -/
def boundSpectrum (m : List Vec) : Nat → Rat → Rat → Rat
  | 0, _, above => above
  | steps + 1, below, above =>
    let middle := (below + above) / 2
    if positivePivots m.length (pencil middle 1 m) then boundSpectrum m steps below middle
    else boundSpectrum m steps middle above

/-- The ratio of singular values from which on the lesser one counts as zero. -/
def rankTolerance (rows width : Nat) : Rat := scaleTwo (max rows width : Nat) (-52)

/-- Whether rows of a given width have full rank numerically. The largest eigenvalue is found up to
`2⁻²⁰` of the trace, which is closer than singular values in doubles are. -/
def hasFullRank (rows : List Vec) (width : Nat) : Bool :=
  let products := gram (columns rows width)
  let largest := boundSpectrum products 20 0 (diagonalSum products)
  let tolerance := rankTolerance rows.length width
  positivePivots width (pencil (-(tolerance * tolerance * largest)) (-1) products)

end Orthant
