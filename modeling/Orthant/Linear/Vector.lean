/-! # Rational vectors

Vectors are lists. Two vectors are combined place by place as far as both reach.
-/

namespace Orthant

abbrev Vec := List Rat

def dot : Vec → Vec → Rat
  | a :: as, b :: bs => a * b + dot as bs
  | _, _ => 0

def subScaled (a : Vec) (f : Rat) (b : Vec) : Vec := List.zipWith (fun x y => x - f * y) a b

def scaleVec (f : Rat) (a : Vec) : Vec := a.map fun x => f * x

def entry (a : Vec) (i : Nat) : Rat := a.getD i 0

def columns (rows : List Vec) (width : Nat) : List Vec :=
  (List.range width).map fun j => rows.map fun r => entry r j

def applyRows (rows : List Vec) (v : Vec) : Vec := rows.map fun r => dot r v

/-- The sublists of `k` elements, in lexicographic order of their places. -/
def choices {α : Type} : Nat → List α → List (List α)
  | 0, _ => [[]]
  | _ + 1, [] => []
  | k + 1, x :: xs => (choices k xs).map (x :: ·) ++ choices (k + 1) xs

end Orthant
