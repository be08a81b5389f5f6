import Orthant.Box.Rectangle

/-! # Certificates

A certificate belongs to one solution of an augmented system. Its candidate lists the numeric
coordinates, the deformation parameter `t` first; its boxes have one rectangle a coordinate.
-/

namespace Orthant

structure Certificate where
  candidate : List Value
  positive : Bool
  certified : Bool
  /-- The box of the first certification step. -/
  interval : Option (List Rectangle)
  /-- The tighter box, when the solver has refined the first. -/
  refined : Option (List Rectangle)

namespace Certificate

def tMidpoint (c : Certificate) : Except Error Complex :=
  match c.candidate with
  | [] => fail .index
  | t :: _ => t.toComplex

/-- The preferred box: the refined one if it is wanted and present. -/
def box (c : Certificate) (preferRefined : Bool) : Option (List Rectangle) :=
  if preferRefined && c.refined.isSome then c.refined else c.interval

def tInterval (c : Certificate) (preferRefined : Bool) : Except Error (Option Rectangle) :=
  match c.box preferRefined with
  | none => .ok none
  | some [] => fail .index
  | some (r :: _) => .ok (some r)

/-- The real part of `t`, then the real parts of the other coordinates, then their imaginary
parts. -/
structure Key where
  t : Double
  re : List Double
  im : List Double
  deriving DecidableEq

def selectionKey (c : Certificate) : Except Error Key := do
  let rest ← c.candidate.tail.mapM Value.toComplex
  let t ← c.tMidpoint
  .ok ⟨t.re, rest.map Complex.re, rest.map Complex.im⟩

def sameList : List Double → List Double → Bool
  | [], [] => true
  | x :: xs, y :: ys => x.same y && sameList xs ys
  | _, _ => false

/-- The first place where two lists differ decides; a list that ends there is smaller. -/
def ltList : List Double → List Double → Bool
  | [], [] => false
  | [], _ :: _ => true
  | _ :: _, [] => false
  | x :: xs, y :: ys => if x.same y then ltList xs ys else x.lt y

namespace Key

def lt (a b : Key) : Bool :=
  if a.t.same b.t then
    if sameList a.re b.re then ltList a.im b.im else ltList a.re b.re
  else a.t.lt b.t

end Key

end Certificate

end Orthant
