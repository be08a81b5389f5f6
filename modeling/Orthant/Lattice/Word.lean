import Orthant.Error

/-! # Words

Lattice coordinates are 64 bit words. Sums and products of words are taken modulo `2 ^ 64`; a number
outside the range is refused when it is stored.
-/

namespace Orthant

def wordMin : Int := -9223372036854775808

def wordMax : Int := 9223372036854775807

def isWord (n : Int) : Bool := wordMin ≤ n && n ≤ wordMax

def wrap (n : Int) : Int := if isWord n then n else n.bmod 18446744073709551616

def toWord (n : Int) : Except Error Int := if isWord n then .ok n else fail .overflow

/-- The sum of products of coordinates, without wrapping. -/
def dotInt : List Int → List Int → Int
  | a :: as, b :: bs => a * b + dotInt as bs
  | _, _ => 0

def dotWord (a b : List Int) : Int := wrap (dotInt a b)

/-- A number cut off toward zero. -/
def truncate (q : Rat) : Int := Int.tdiv q.num q.den

namespace Value

/-- A value as a word, cut off toward zero. -/
def toWord (v : Value) : Except Error Int := do Orthant.toWord (← v.toInteger)

end Value

end Orthant
