import Orthant.Linear.Inverse
import Orthant.Linear.Simplex
import Orthant.Polytope.Basic

/-! # Balance points

A balance point of positive exponents and a negative one is a positive solution of the lifted
equations, normalized so that the negative slot is 1. Its other slots are barycentric weights of
the negative exponent. A solver proposes a point; projecting it onto the equations and checking the
signs makes the answer exact whatever was proposed.
-/

namespace Orthant

namespace Balance

/-- The lifted matrix: a row of ones over the transposed exponents, the last column negated. -/
def matrixOf (positive : List (List Int)) (negative : List Int) : List (List Int) :=
  (List.range (negative.length + 1)).map fun i =>
    match i with
    | 0 => List.replicate positive.length 1 ++ [-1]
    | k + 1 => positive.map (fun a => a.getD k 0) ++ [wrap (-(negative.getD k 0))]

/-- The lifted matrix of grids; the negative exponent is one row as long as the others. -/
def matrix (positive negative : Grid) : Except Error (List (List Int)) :=
  match positive.points?, negative.shape with
  | some rows, [n] =>
    if (rows.headD []).length = n then .ok (matrixOf rows negative.entries) else fail .value
  | _, _ => fail .value

/-- The least sum of a solution whose entries are all at least 1, none if there is none. -/
def propose (a : List Vec) (cols : Nat) : Option Vec :=
  let right := a.map fun row => -(row.foldl (· + ·) 0)
  (Simplex.minimize a right (List.replicate cols 1)).map fun u => u.map (1 + ·)

theorem length_of_propose {a : List Vec} {cols : Nat} {y : Vec} (h : propose a cols = some y) :
    y.length = cols := by
  simp only [propose, Simplex.minimize, Option.map_eq_some_iff] at h
  obtain ⟨u, hu, rfl⟩ := h
  split at hu
  · cases hu
  · cases hu
    simp [Simplex.solution]

/-- Whatever proposes a vector for a matrix of a given width, or none. -/
abbrev Program := List Vec → (cols : Nat) → Option { y : Vec // y.length = cols }

def Program.exact : Program := fun a cols =>
  (propose a cols).attach.map fun y => ⟨y.1, length_of_propose y.2⟩

def gram (a : List Vec) : List Vec := a.map fun r => a.map fun s => dot r s

/-- The nearest solution of `a * y = 0`, given the inverse of the products of rows. -/
def project (a inverse : List Vec) (y : Vec) : Vec :=
  let m := applyRows inverse (applyRows a y)
  List.zipWith (· - ·) y ((columns a y.length).map fun c => dot c m)

/-- The exact point from a proposal. `entries` are the texts of the negative exponent. -/
def pointFrom (a : List (List Int)) (proposal : Option Vec) (entries : List String) :
    Except Error Vec :=
  match proposal with
  | none => .error (.notBalanced entries)
  | some y =>
    let rows := a.map toVec
    match invert (gram rows) with
    | none => .error .positiveNotFull
    | some inverse =>
      let y := project rows inverse y
      if y.any (· ≤ 0) then .error .balanceNotPositive
      else .ok (y.map fun v => v / y.getLastD 1)

def point (a : List (List Int)) (entries : List String) (program : Program := .exact) :
    Except Error Vec :=
  pointFrom a ((program (a.map toVec) (a.headD []).length).map Subtype.val) entries

def entryText : Value → String
  | .real (.rational q) => "Fraction(" ++ toString q.num ++ ", " ++ toString q.den ++ ")"
  | .real x => x.text
  | .text s => quoted s
  | _ => "None"

def matrixOfValues (positive negative : Value) : Except Error (List (List Int)) := do
  let p ← positive.toGrid
  let q ← negative.toGrid
  matrix p q

def pointOfValues (positive negative : Value) : Except Error Vec := do
  point (← matrixOfValues positive negative) (negative.leaves.map entryText)

end Balance

end Orthant
