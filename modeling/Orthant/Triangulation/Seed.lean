import Orthant.Error
import Orthant.Text.Digest

/-! # Seeds

The integer that starts the random numbers. An integer is its own seed; a double gives its residue
modulo a prime, so that equal numbers have equal seeds; a text gives its bytes followed by their
digest.
-/

namespace Orthant

namespace Seed

def modulus : Nat := twoPow 61 - 1

/-- The residue of a nonnegative binary fraction: a half is the power of two before the last. -/
def residue (q : Rat) : Nat :=
  q.num.natAbs * Nat.pow (twoPow 60) (q.den.log2 % 61) % modulus

def ofDouble : Double → Int
  | .nan => 0
  | .infinite s => if s then twoPow 64 - 314159 else 314159
  | .negZero => 0
  | .finite q =>
    let r := residue q
    if q < 0 ∧ r ≠ 0 then twoPow 64 - (if r = 1 then 2 else r) else r

def ofText (s : String) : Int :=
  let bytes := s.toUTF8.data.toList.map UInt8.toNat
  Digest.ofBytes (bytes ++ Digest.hash bytes)

def ofValue : Value → Except Error Int
  | .real (.bool b) => .ok (if b then 1 else 0)
  | .real (.int n) => .ok n
  | .real (.double x) => .ok (ofDouble x)
  | .text s => .ok (ofText s)
  | _ => fail .kind

end Seed

end Orthant
