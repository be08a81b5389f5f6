import Orthant.Number.Double

/-! # Decimal text of doubles

`shortest` finds the fewest decimal digits that read back as the same double; `Double.text` writes
them, positionally while the decimal exponent is at least -4 and below 16. `Double.fixed` writes a
given number of places.
-/

namespace Orthant

/-- Decimal digits with the exponent of the leading one: `digits = 123`, `exponent = 0` is 1.23. -/
structure Decimal where
  digits : Nat
  exponent : Int

def digitCount (n : Nat) : Nat := (Nat.toDigits 10 n).length

/-- Removes zeros at the end of a positive number, at most `fuel` of them. -/
def stripZeros (n : Nat) : Nat → Nat
  | 0 => n
  | fuel + 1 => if n % 10 = 0 then stripZeros (n / 10) fuel else n

/-- The two neighbours of `n / d` among multiples of `10 ^ e`, as multipliers, the nearer first. -/
def neighbours (n d : Nat) (e : Int) : Nat × Nat :=
  let num := match e with
    | .ofNat _ => n
    | .negSucc k => n * tenPow (k + 1)
  let den := match e with
    | .ofNat k => d * tenPow k
    | .negSucc _ => d
  let low := num / den
  if 2 * (num % den) ≤ den then (low, low + 1) else (low + 1, low)

/-- The digits of the first count, from `k` on, for which a neighbour reads back as `q`. -/
def shortestFrom (q : Rat) (lead : Int) (k : Nat) : Nat → Decimal
  | 0 =>
    let e := lead - (k : Int) + 1
    ⟨(neighbours q.num.natAbs q.den e).1, lead⟩
  | fuel + 1 =>
    let e := lead - (k : Int) + 1
    let (a, b) := neighbours q.num.natAbs q.den e
    if Double.ofRat (scaleTen a e) = .finite q then ⟨a, e + (digitCount a : Int) - 1⟩
    else if Double.ofRat (scaleTen b e) = .finite q then ⟨b, e + (digitCount b : Int) - 1⟩
    else shortestFrom q lead (k + 1) fuel

/-- The fewest digits that read back as the positive double of value `q`. -/
def shortest (q : Rat) : Decimal :=
  let d := shortestFrom q (floorLogTen q.num.natAbs q.den) 1 17
  ⟨stripZeros d.digits 20, d.exponent⟩

def zeros (n : Nat) : String := String.ofList (List.replicate n '0')

def withPoint (digits : String) (k : Nat) : String :=
  let cs := digits.toList
  String.ofList (cs.take k) ++ "." ++ String.ofList (cs.drop k)

namespace Decimal

/-- Without exponent, with at least one digit on each side of the point. -/
def positional (d : Decimal) : String :=
  let s := toString d.digits
  match d.exponent with
  | .ofNat k =>
    if s.length ≤ k + 1 then s ++ zeros (k + 1 - s.length) ++ ".0" else withPoint s (k + 1)
  | .negSucc k => "0." ++ zeros k ++ s

/-- One digit before the point, which is left out when nothing follows it. -/
def mantissa (d : Decimal) : String :=
  let s := toString d.digits
  if s.length ≤ 1 then s else withPoint s 1

def exponentText (e : Int) : String :=
  let s := toString e.natAbs
  (if e < 0 then "-" else "+") ++ (if s.length < 2 then "0" ++ s else s)

/-- Positional while the exponent is at least -4 and below 16. -/
def text (d : Decimal) : String :=
  if -4 ≤ d.exponent ∧ d.exponent < 16 then d.positional
  else d.mantissa ++ "e" ++ exponentText d.exponent

end Decimal

namespace Double

def text : Double → String
  | nan => "nan"
  | infinite s => if s then "-inf" else "inf"
  | negZero => "-0.0"
  | finite q =>
    if q.num = 0 then "0.0"
    else (if q.num < 0 then "-" else "") ++ (shortest (if q.num < 0 then -q else q)).text

end Double

def fixedMagnitude (places : Nat) (q : Rat) : String :=
  let n := (roundDiv ((q.num.natAbs * tenPow places : Nat) : Int) q.den).toNat
  let s := toString n
  let s := zeros (places + 1 - s.length) ++ s
  withPoint s (s.length - places)

namespace Double

/-- The text with a given number of places; the sign is kept even when all digits are zero. -/
def fixed (places : Nat) : Double → String
  | nan => "nan"
  | infinite s => if s then "-inf" else "inf"
  | negZero => "-" ++ fixedMagnitude places 0
  | finite q => (if q < 0 then "-" else "") ++ fixedMagnitude places q

end Double

/-- The text with a given number of places, where zero has no sign. -/
def fixedRat (places : Nat) (q : Rat) : String :=
  let s := fixedMagnitude places q
  if q < 0 ∧ s ≠ fixedMagnitude places 0 then "-" ++ s else s

/-- A rational as `p` or `p/q` in lowest terms. -/
def ratText (q : Rat) : String :=
  if q.den = 1 then toString q.num else toString q.num ++ "/" ++ toString q.den

end Orthant
