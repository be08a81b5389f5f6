import Orthant.Number.Power

/-! # Digests of texts

The secure hash of 512 bits. Its constants are the first 64 bits behind the point of the square
roots and the cube roots of the first primes.
-/

namespace Orthant

namespace Digest

def isPrime (n : Nat) : Bool :=
  1 < n && (List.range n).all fun d => d < 2 || n % d != 0

def primes : List Nat := (List.range 410).filter isPrime

def rootBits (k p : Nat) : UInt64 := UInt64.ofNat (floorRoot k (p * twoPow (64 * k)))

def roundConstants : List UInt64 := primes.map (rootBits 3)

def start : List UInt64 := (primes.take 8).map (rootBits 2)

def rotate (x : UInt64) (k : UInt64) : UInt64 := (x >>> k) ||| (x <<< (64 - k))

def bytesOf (n : Nat) : Nat → List Nat
  | 0 => []
  | count + 1 => bytesOf (n / 256) count ++ [n % 256]

def ofBytes (bytes : List Nat) : Nat := bytes.foldl (fun n b => 256 * n + b) 0

/-- A message with a one bit, zeros and its length in bits, filling blocks of 128 bytes. -/
def padded (bytes : List Nat) : List Nat :=
  let zeros := (128 - (bytes.length + 17) % 128) % 128
  bytes ++ 128 :: List.replicate zeros 0 ++ bytesOf (8 * bytes.length) 16

def wordsOf (bytes : List Nat) : Nat → List UInt64
  | 0 => []
  | count + 1 => UInt64.ofNat (ofBytes (bytes.take 8)) :: wordsOf (bytes.drop 8) count

/-- The sixteen words of a block followed by those that are mixed from them. -/
def schedule (words : List UInt64) : Array UInt64 :=
  (List.range 64).foldl (fun w i =>
    let at' (k : Nat) : UInt64 := w.getD (i + 16 - k) 0
    let s₀ := rotate (at' 15) 1 ^^^ rotate (at' 15) 8 ^^^ (at' 15 >>> 7)
    let s₁ := rotate (at' 2) 19 ^^^ rotate (at' 2) 61 ^^^ (at' 2 >>> 6)
    w.push (at' 16 + s₀ + at' 7 + s₁)) words.toArray

def step (state : List UInt64) (k w : UInt64) : List UInt64 :=
  match state with
  | [a, b, c, d, e, f, g, h] =>
    let s₁ := rotate e 14 ^^^ rotate e 18 ^^^ rotate e 41
    let t₁ := h + s₁ + ((e &&& f) ^^^ ((~~~ e) &&& g)) + k + w
    let s₀ := rotate a 28 ^^^ rotate a 34 ^^^ rotate a 39
    let t₂ := s₀ + ((a &&& b) ^^^ (a &&& c) ^^^ (b &&& c))
    [t₁ + t₂, a, b, c, d + t₁, e, f, g]
  | state => state

def compress (state : List UInt64) (block : List Nat) : List UInt64 :=
  let rounds := (roundConstants.zip (schedule (wordsOf block 16)).toList).foldl
    (fun s p => step s p.1 p.2) state
  List.zipWith (· + ·) state rounds

def absorb (state : List UInt64) (bytes : List Nat) : Nat → List UInt64
  | 0 => state
  | count + 1 => absorb (compress state (bytes.take 128)) (bytes.drop 128) count

def hash (bytes : List Nat) : List Nat :=
  let message := padded bytes
  (absorb start message (message.length / 128)).flatMap fun w => bytesOf w.toNat 8

end Digest

end Orthant
