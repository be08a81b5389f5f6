import Orthant.Lattice.Word

/-! # Grids of words

A grid is an array of words: its shape and its entries, the last place running fastest. Lists within
lists are a grid when all lists of one level have one length.
-/

namespace Orthant

structure Grid where
  shape : List Nat
  entries : List Int
  deriving DecidableEq

namespace Value

mutual

/-- The shape of nested lists, none if they are ragged. -/
def shape? : Value → Option (List Nat)
  | list xs => (itemShape? xs).map fun s => xs.length :: s
  | _ => some []

def itemShape? : List Value → Option (List Nat)
  | [] => some []
  | [x] => x.shape?
  | x :: xs => do
    let s ← x.shape?
    let t ← itemShape? xs
    if s = t then some s else none

end

mutual

/-- The entries of nested lists in their order. -/
def leaves : Value → List Value
  | list xs => leavesOf xs
  | v => [v]

def leavesOf : List Value → List Value
  | [] => []
  | x :: xs => x.leaves ++ leavesOf xs

end

def toGrid (v : Value) : Except Error Grid :=
  match v.shape? with
  | none => fail .value
  | some s => do .ok ⟨s, ← v.leaves.mapM toWord⟩

end Value

/-- Cuts a list into `count` rows of a width. -/
def chunks {α : Type} (width : Nat) (xs : List α) : Nat → List (List α)
  | 0 => []
  | k + 1 => xs.take width :: chunks width (xs.drop width) k

namespace Grid

/-- The entries as points: a single row stands for one point, a single word for one point of the
line. A grid of more than two levels has no points but blocks. -/
def points? (g : Grid) : Option (List (List Int)) :=
  match g.shape with
  | [] => some [g.entries]
  | [_] => some [g.entries]
  | [count, width] => some (chunks width g.entries count)
  | _ => none

/-- The entries as rows of `width`, which has to divide their number. -/
def reshape (g : Grid) (width : Nat) : Except Error (List (List Int)) :=
  if width = 0 then fail .value
  else if g.entries.length % width = 0 then
    .ok (chunks width g.entries (g.entries.length / width))
  else fail .value

end Grid

end Orthant
