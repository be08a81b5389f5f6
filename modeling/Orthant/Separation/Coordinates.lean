import Orthant.Linear.Rounded
import Orthant.Separation.Simplex

/-! # Barycentric coordinates in doubles

The coordinates of given points by the rounded inverse of the lifted vertices.
-/

namespace Orthant

namespace Separation

/-- The rounded matrix of barycentric coordinates of given vertices, with the dimension. -/
def roundedInverse (vertices : Value) : Except Error (Nat × List (List Double)) := do
  let (n, rows) ← readRows vertices
  let lifted := (List.range n).map (fun j => rows.map fun r => r.getD j .zero) ++
    [rows.map fun _ => .one]
  if rows.isEmpty ∨ rows.length ≠ n + 1 then fail .singular
  else match Rounded.invert lifted with
    | some inverse => .ok (n, inverse)
    | none => fail .singular

def roundedCoordinates (n : Nat) (inverse : List (List Double)) (point : Value) :
    Except Error (List Double) := do
  let x ← readPoint point
  if x.length = n then .ok (inverse.map fun row => Rounded.dot row (x ++ [.one]))
  else fail .value

end Separation

end Orthant
