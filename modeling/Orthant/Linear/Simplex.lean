import Orthant.Linear.Vector
import Orthant.Number.Rounding

/-! # Exact linear programs

The simplex method over the rationals: minimize `cost * x` subject to `rows * x = right` and
`x ≥ 0`. What it finds is only ever a proposal; those who use it check what they need.
-/

namespace Orthant

namespace Simplex

/-- Rows in terms of a basis, with the right side as last entry of each row; `cost` holds the
reduced costs and the negative value. -/
structure Tableau where
  rows : Array (Array Rat)
  cost : Array Rat
  basis : Array Nat

def coord (a : Array Rat) (i : Nat) : Rat := a.getD i 0

def subtract (a : Array Rat) (f : Rat) (b : Array Rat) : Array Rat :=
  if f = 0 then a else a.zipWith (fun x y => if y = 0 then x else x - f * y) b

/-- Brings the variable of column `c` into the basis in place of row `r`. -/
def pivot (t : Tableau) (r c : Nat) : Tableau :=
  let row := t.rows.getD r #[]
  let inv := 1 / coord row c
  let row := row.map fun x => if x = 0 then x else x * inv
  { rows := t.rows.mapIdx fun i old => if i = r then row else subtract old (coord old c) row
    cost := subtract t.cost (coord t.cost c) row
    basis := t.basis.setIfInBounds r c }

/-- The first column, among the first `n`, that lowers the cost. -/
def entering? (t : Tableau) (n : Nat) : Option Nat :=
  (List.range n).find? fun j => coord t.cost j < 0

/-- The row that bounds the column first; of equal ones the row whose variable comes first. -/
def leaving? (t : Tableau) (c : Nat) : Option Nat :=
  let last := t.cost.size - 1
  let best := (List.range t.rows.size).foldl (fun (best : Option (Rat × Nat × Nat)) i =>
    let row := t.rows.getD i #[]
    let a := coord row c
    if 0 < a then
      let ratio := coord row last / a
      let v := t.basis.getD i 0
      match best with
      | none => some (ratio, v, i)
      | some (q, w, _) => if ratio < q || (ratio == q && v < w) then some (ratio, v, i) else best
    else best) none
  best.map fun b => b.2.2

/-- Pivots on the first `n` columns until none lowers the cost. The bases met are distinct, so
`fuel` is never used up when it is the number of sets of columns. -/
def optimize (t : Tableau) (n : Nat) : Nat → Tableau
  | 0 => t
  | fuel + 1 =>
    match entering? t n with
    | none => t
    | some c =>
      match leaving? t c with
      | none => t
      | some r => optimize (pivot t r c) n fuel

def solution (t : Tableau) (n : Nat) : Vec :=
  let last := t.cost.size - 1
  (List.range n).map fun j =>
    match (List.range t.rows.size).find? fun i => t.basis.getD i t.cost.size == j with
    | some i => coord (t.rows.getD i #[]) last
    | none => 0

def reduceCost (rows : Array (Array Rat)) (basis : Array Nat) (cost : Array Rat) : Array Rat :=
  (List.range rows.size).foldl
    (fun acc i => subtract acc (coord cost (basis.getD i 0)) (rows.getD i #[])) cost

/-- A program with one artificial variable a row, the right side made nonnegative. -/
def artificial (rows : List Vec) (right : Vec) : Array (Array Rat) :=
  let m := rows.length
  (rows.zip right).zipIdx.toArray.map fun ((row, b), i) =>
    let s : Rat := if b < 0 then -1 else 1
    (row.map (s * ·) ++ (List.range m).map (fun j => if i = j then 1 else 0) ++ [s * b]).toArray

/-- Replaces artificial variables that are left in the basis where a column allows it. -/
def driveOut (t : Tableau) (n : Nat) : Tableau :=
  (List.range t.rows.size).foldl (fun t i =>
    if t.basis.getD i 0 < n then t
    else match (List.range n).find? fun j => coord (t.rows.getD i #[]) j != 0 with
      | some j => pivot t i j
      | none => t) t

/-- An optimal vertex, none if no point satisfies the equations. -/
def minimize (rows : List Vec) (right cost : Vec) : Option Vec :=
  let n := cost.length
  let m := rows.length
  let start := artificial rows right
  let basis := (List.range m).toArray.map (n + ·)
  let first := (List.replicate n (0 : Rat) ++ List.replicate m 1 ++ [0]).toArray
  let t := optimize ⟨start, reduceCost start basis first, basis⟩ n (twoPow (n + m))
  if coord t.cost (n + m) < 0 then none
  else
    let t := driveOut t n
    let second := (cost ++ List.replicate (m + 1) (0 : Rat)).toArray
    let t := optimize { t with cost := reduceCost t.rows t.basis second } n (twoPow (n + m))
    some (solution t n)

end Simplex

end Orthant
