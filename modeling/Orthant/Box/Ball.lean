import Orthant.Error

/-! # Balls

A ball is written between brackets as midpoint, plus-minus sign and radius, where a missing midpoint
is zero, or it is an exact number. `Ball.bounds` gives its exact ends.
-/

namespace Orthant.Ball

def isWordChar (c : Char) : Bool := !isBlank c && c != ']'

/-- What follows the midpoint: blanks, the sign, blanks, a radius, blanks, the bracket. -/
def radiusPart (cs : List Char) : Option (List Char) :=
  match cs.dropWhile isBlank with
  | '+' :: '/' :: '-' :: rest =>
    let rest := rest.dropWhile isBlank
    let rad := rest.takeWhile isWordChar
    if rad.isEmpty then none
    else if (rest.dropWhile isWordChar).dropWhile isBlank = [']'] then some rad
    else none
  | _ => none

/-- The longest midpoint of at most `k` characters that a radius part follows. -/
def cutAt (word rest : List Char) : Nat → Option (List Char × List Char)
  | 0 => (radiusPart (word ++ rest)).map fun rad => ([], rad)
  | k + 1 =>
    match radiusPart (word.drop (k + 1) ++ rest) with
    | some rad => some (word.take (k + 1), rad)
    | none => cutAt word rest k

def parts : List Char → Option (List Char × List Char)
  | '[' :: cs =>
    let cs := cs.dropWhile isBlank
    let word := cs.takeWhile isWordChar
    cutAt word (cs.dropWhile isWordChar) word.length
  | _ => none

def number (text part : List Char) (read : List Char → Numeral := readRatioBare) :
    Except Error Rat :=
  match read part with
  | .malformed => .error (.ballNotFinite (String.ofList text))
  | .zeroDenominator => fail .zeroDivision
  | .value q => .ok q

/-- The ends of the ball that a text without blanks around it describes. -/
def boundsBare (text : List Char) (read : List Char → Numeral := readRatioBare) :
    Except Error (Rat × Rat) :=
  match parts text with
  | none => do
    let q ← number text text read
    .ok (q, q)
  | some (mid, rad) => do
    let m ← if mid.isEmpty then .ok 0 else number text mid read
    let r ← number text rad read
    .ok (m - r, m + r)

/-- The exact ends of a ball. A negative radius puts them in the wrong order. -/
def bounds (text : String) (read : List Char → Numeral := readRatioBare) :
    Except Error (Rat × Rat) :=
  boundsBare (stripBlanks text.toList) read

/-- The ends of a ball given as a value; only a text describes one. -/
def boundsOf : Value → Except Error (Rat × Rat)
  | .text s => bounds s
  | _ => fail .part

end Orthant.Ball
