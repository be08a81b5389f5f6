/-! # The Mersenne twister

The random numbers that start an enumeration: 32 bit outputs of the twister with 624 words, seeded
from the words of the seed's magnitude.
-/

namespace Orthant

/-- The last 624 words of the recurrence, the oldest first. -/
structure Twister where
  words : List Nat

namespace Twister

def base : Nat := 4294967296

def scramble (x : Nat) : Nat := x ^^^ (x >>> 30)

def follow (x k : Nat) : Nat → List Nat
  | 0 => []
  | n + 1 =>
    let y := (1812433253 * scramble x + k) % base
    y :: follow y (k + 1) n

def keyWords (n : Nat) : Nat → List Nat
  | 0 => []
  | fuel + 1 => if n < base then [n] else n % base :: keyWords (n / base) fuel

/-- How the `k`th step changes a word, given the word before it: the words of the key are mixed in
first, then the places of the words. After that nothing changes. -/
def mix (key : List Nat) (k before x : Nat) : Nat :=
  let steps := max 624 key.length
  let j := k % key.length
  if k < steps then ((x ^^^ (scramble before * 1664525 % base)) + key.getD j 0 + j) % base
  else if k < steps + 623 then
    ((x ^^^ (scramble before * 1566083941 % base)) + (base - (k % 623 + 1))) % base
  else x

/-- One round over the words, with steps numbered from `k`. -/
def sweep (key : List Nat) (k before : Nat) : List Nat → List Nat
  | [] => []
  | x :: xs =>
    let y := mix key k before x
    y :: sweep key (k + 1) y xs

/-- Rounds one after the other; the first word follows the last one. -/
def sweeps (key : List Nat) (k before : Nat) (words : List Nat) : Nat → List Nat
  | 0 => words
  | rounds + 1 =>
    let words := sweep key k before words
    sweeps key (k + 623) (words.getLastD 0) words rounds

def ofKey (key : List Nat) : Twister :=
  let rounds := (max 624 key.length + 623) / 623 + 1
  ⟨2147483648 :: sweeps key 0 19650218 (follow 19650218 1 623) rounds⟩

def ofSeed (seed : Int) : Twister := ofKey (keyWords seed.natAbs (seed.natAbs.log2 / 32 + 1))

def temper (y : Nat) : Nat :=
  let y := y ^^^ (y >>> 11)
  let y := y ^^^ ((y <<< 7) &&& 2636928640)
  let y := y ^^^ ((y <<< 15) &&& 4022730752)
  y ^^^ (y >>> 18)

/-- The next output: the first bit of the oldest word joined with the other bits of the second one,
shifted onto a later one. -/
def next (t : Twister) : Nat × Twister :=
  let y := (t.words.getD 0 0 &&& 2147483648) ||| (t.words.getD 1 0 &&& 2147483647)
  let x := t.words.getD 397 0 ^^^ (y >>> 1) ^^^ (if y % 2 = 1 then 2567483615 else 0)
  (temper x, ⟨t.words.tail ++ [x]⟩)

/-- A number from 1 to a billion: the top thirty bits of the first output, within `fuel` draws,
for which they are below a billion. -/
def height (t : Twister) : Nat → Nat × Twister
  | 0 => (1, t)
  | fuel + 1 =>
    let (x, t) := t.next
    let r := x >>> 2
    if r < 1000000000 then (r + 1, t) else height t fuel

def heights (t : Twister) : Nat → List Nat × Twister
  | 0 => ([], t)
  | count + 1 =>
    let (h, t) := t.height 1000
    let (hs, t) := heights t count
    (h :: hs, t)

end Twister

end Orthant
