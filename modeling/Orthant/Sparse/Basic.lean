/-! # Sparse polynomials

A polynomial in a fixed number of variables is a list of exponents with coefficients, the exponents
in falling lexicographic order, no exponent twice and no coefficient zero. The arithmetic of the
coefficients is a parameter.
-/

namespace Orthant

/-- The operations on coefficients. -/
structure Scalars (α : Type) where
  zero : α
  one : α
  add : α → α → α
  neg : α → α
  mul : α → α → α
  isZero : α → Bool

abbrev Sparse (α : Type) := List (List Nat × α)

/-- Falling lexicographic order: larger exponents come first. -/
def compareFalling : List Nat → List Nat → Ordering
  | [], [] => .eq
  | [], _ :: _ => .lt
  | _ :: _, [] => .gt
  | a :: as, b :: bs => if a = b then compareFalling as bs else if b < a then .lt else .gt

namespace Sparse

variable {α : Type}

def constant (s : Scalars α) (n : Nat) (c : α) : Sparse α :=
  if s.isZero c then [] else [(List.replicate n 0, c)]

def indeterminate (s : Scalars α) (n place : Nat) : Sparse α :=
  [((List.range n).map fun j => if j = place then 1 else 0, s.one)]

def add (s : Scalars α) (p q : Sparse α) : Sparse α :=
  match p, q with
  | [], q => q
  | p, [] => p
  | (a, c) :: p, (b, d) :: q =>
    match compareFalling a b with
    | .lt => (a, c) :: add s p ((b, d) :: q)
    | .gt => (b, d) :: add s ((a, c) :: p) q
    | .eq =>
      let e := s.add c d
      if s.isZero e then add s p q else (a, e) :: add s p q
termination_by p.length + q.length

def neg (s : Scalars α) (p : Sparse α) : Sparse α := p.map fun t => (t.1, s.neg t.2)

def mulTerm (s : Scalars α) (t : List Nat × α) (p : Sparse α) : Sparse α :=
  p.map fun u => (List.zipWith (· + ·) t.1 u.1, s.mul t.2 u.2)

/-- The product with a coefficient other than zero. -/
def scale (s : Scalars α) (c : α) (p : Sparse α) : Sparse α := p.map fun t => (t.1, s.mul c t.2)

def mul (s : Scalars α) (p q : Sparse α) : Sparse α :=
  p.foldr (fun t acc => add s (mulTerm s t q) acc) []

/-- A natural power of a polynomial in `n` variables. -/
def pow (s : Scalars α) (n : Nat) (p : Sparse α) : Nat → Sparse α
  | 0 => constant s n s.one
  | k + 1 => mul s p (pow s n p k)

def constant? (s : Scalars α) (p : Sparse α) : Option α :=
  match p with
  | [] => some s.zero
  | [(a, c)] => if a.all (· = 0) then some c else none
  | _ => none

end Sparse

end Orthant
