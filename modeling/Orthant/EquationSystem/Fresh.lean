/-! # Fresh names

A fresh name is a given one followed by the fewest underscores that make it new.
-/

namespace Orthant

def underscores (k : Nat) : String := String.ofList (List.replicate k '_')

/-- The least count up to a bound that a test accepts; the bound itself if there is none. -/
def leastCount (bound : Nat) (accepts : Nat → Bool) : Nat :=
  ((List.range bound).find? accepts).getD bound

def freshName (name : String) (taken : List String) : String :=
  name ++ underscores (leastCount taken.length fun k => !taken.contains (name ++ underscores k))

def numbered (stem : String) (count : Nat) : List String :=
  (List.range count).map fun i => stem ++ toString i

def freshNames (stem : String) (count : Nat) (taken : List String) : List String :=
  let k := leastCount taken.length fun k =>
    (numbered (stem ++ underscores k) count).all fun s => !taken.contains s
  numbered (stem ++ underscores k) count

end Orthant
