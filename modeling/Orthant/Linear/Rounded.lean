import Orthant.Number.Double

/-! # Inverse matrices in doubles

Elimination with the largest pivot of each column, every operation rounded. Rows are divided by
multiplication with the rounded reciprocal of the pivot.
-/

namespace Orthant

namespace Rounded

abbrev Row := List Double

/-- The first place of the largest magnitude among the leading entries. -/
def pivotPlace (rows : List Row) : Nat :=
  (rows.zipIdx.foldl (fun (best : Nat × Double) r =>
    let x := (r.1.headD .zero).abs
    if best.2.lt x then (r.2, x) else best) (0, ((rows.headD []).headD .zero).abs)).1

def takePivot (rows : List Row) : Row × List Row :=
  let i := pivotPlace rows
  (rows.getD i [], (rows.set i (rows.headD [])).tail)

def subtract (row : Row) (factor : Double) (other : Row) : Row :=
  List.zipWith (fun x y => x.sub (factor.mul y)) row other

def clear (reciprocal : Double) (pivot row : Row) : Row :=
  subtract row.tail ((row.headD .zero).mul reciprocal) pivot.tail

/-- Rows in triangular form, each from its pivot on; none if a pivot is zero. -/
def triangular (rows : List Row) : Nat → Option (List Row)
  | 0 => some []
  | k + 1 =>
    let (pivot, others) := takePivot rows
    let a := pivot.headD .zero
    if a.same .zero then none
    else (triangular (others.map (clear (Double.one.div a) pivot)) k).map (pivot :: ·)

/-- The solution of a triangular row, given those of the rows below. -/
def solveRow (row : Row) (solved : List Row) : Row :=
  let rest := row.tail
  let right := ((rest.zip solved).reverse).foldl (fun acc p => subtract acc p.1 p.2)
    (rest.drop solved.length)
  right.map (Double.mul (Double.one.div (row.headD .zero)))

def invert (m : List Row) : Option (List Row) := do
  let n := m.length
  let augmented := m.zipIdx.map fun r =>
    r.1 ++ (List.range n).map fun j => if r.2 = j then .one else .zero
  let rows ← triangular augmented n
  some (rows.foldr (fun row solved => solveRow row solved :: solved) [])

def dot (a b : Row) : Double :=
  match List.zipWith Double.mul a b with
  | [] => .zero
  | x :: xs => xs.foldl Double.add x

end Rounded

end Orthant
