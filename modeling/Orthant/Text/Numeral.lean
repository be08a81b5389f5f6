import Orthant.Text.Blank
import Orthant.Text.Digit
import Orthant.Number.Double

/-! # Numerals

Readers of number texts over the same digit runs: `readRatio` for exact ratios and decimals,
`readInteger?` for integers, `readDouble?` for doubles, `readComplex?` for complex doubles. A digit
run may hold single underscores between digits. The digits of an integer are limited in number, those
of a double are not.
-/

namespace Orthant

/-- A run of digits with single underscores between them, and what follows it. `acc` is the value
of the digits before, `count` their number. -/
def digitRun (acc count : Nat) : List Char → Nat × Nat × List Char
  | [] => (acc, count, [])
  | '_' :: c :: rest =>
    if count = 0 then (acc, count, '_' :: c :: rest)
    else match digitValue? c with
      | some d => digitRun (10 * acc + d) (count + 1) rest
      | none => (acc, count, '_' :: c :: rest)
  | c :: rest =>
    match digitValue? c with
    | some d => digitRun (10 * acc + d) (count + 1) rest
    | none => (acc, count, c :: rest)

def digitLimit : Nat := 4300

def integerRun (cs : List Char) : Option (Nat × List Char) :=
  match digitRun 0 0 cs with
  | (n, k + 1, rest) => if k < digitLimit then some (n, rest) else none
  | _ => none

/-- An optional sign: whether it is a minus, and what follows. -/
def signOf : List Char → Bool × List Char
  | '-' :: rest => (true, rest)
  | '+' :: rest => (false, rest)
  | cs => (false, cs)

def signed (negative : Bool) (n : Nat) : Int := if negative then -(n : Int) else n

/-- What a number text says: no number, a ratio with denominator zero, or a value. -/
inductive Numeral
  | malformed
  | zeroDenominator
  | value (q : Rat)
  deriving DecidableEq

/-- The exponent part `e` or `E`, sign, digits, with the number of digits; zero if there is
none. -/
def exponentPart : List Char → Option (Int × Nat)
  | [] => some (0, 0)
  | c :: rest =>
    if c = 'e' ∨ c = 'E' then
      let (neg, rest) := signOf rest
      match digitRun 0 0 rest with
      | (n, k + 1, []) => some (signed neg n, k + 1)
      | _ => none
    else none

/-- The parts of an unsigned decimal: digits, a point with digits, an exponent. At least one digit
stands before the point or directly after it. -/
structure DecimalParts where
  whole : Nat
  wholeDigits : Nat
  fraction : Nat
  places : Nat
  exponent : Int
  exponentDigits : Nat

namespace DecimalParts

def scaled (d : DecimalParts) : Nat × Int :=
  (d.whole * tenPow d.places + d.fraction, d.exponent - (d.places : Int))

/-- Whether all digit runs are short enough for integers. -/
def isLimited (d : DecimalParts) : Bool :=
  [d.wholeDigits, d.places, d.exponentDigits].all fun k => decide (k ≤ digitLimit)

end DecimalParts

def decimalParts (cs : List Char) : Option DecimalParts :=
  let (whole, count, rest) := digitRun 0 0 cs
  match rest with
  | '.' :: rest =>
    let (all, places, rest) := digitRun 0 0 rest
    if count + places = 0 then none
    else (exponentPart rest).map fun e => ⟨whole, count, all, places, e.1, e.2⟩
  | rest => if count = 0 then none
    else (exponentPart rest).map fun e => ⟨whole, count, 0, 0, e.1, e.2⟩

def ratioPart (cs : List Char) : Option (Nat × Nat) := do
  match ← integerRun cs with
  | (n, '/' :: rest) =>
    match ← integerRun rest with
    | (d, []) => some (n, d)
    | _ => none
  | _ => none

/-- A number text without blanks: a ratio, or a decimal. -/
def readRatioBare (cs : List Char) : Numeral :=
  let (neg, rest) := signOf cs
  match ratioPart rest with
  | some (n, d) => if d = 0 then .zeroDenominator else .value (mkRat (signed neg n) d)
  | none =>
    match decimalParts rest with
    | some d =>
      if d.isLimited then .value (scaleTen (signed neg d.scaled.1) d.scaled.2) else .malformed
    | none => .malformed

/-- An exact number text, blanks allowed around it. -/
def readRatio (s : String) : Numeral := readRatioBare (stripBlanks s.toList)

/-- An integer: blanks around it, an optional sign, digits. -/
def readInteger? (s : String) : Option Int :=
  let (neg, rest) := signOf (stripBlanks s.toList)
  match integerRun rest with
  | some (n, []) => some (signed neg n)
  | _ => none

def lowerText (cs : List Char) : String := String.ofList (cs.map Char.toLower)

/-- The double of a sign, a significand and a power of ten. Far beyond the range the power is not
computed. -/
def doubleOfParts (neg : Bool) (m : Nat) (e : Int) : Double :=
  let lead := e + ((toString m).length : Int)
  if m = 0 ∨ lead < -400 then Double.signedZero neg
  else if 400 < lead then .infinite neg
  else Double.ofRat (scaleTen (signed neg m) e)

/-- A double text, blanks allowed around it: a decimal, or a name for an infinity or no number. -/
def readDouble? (s : String) : Option Double :=
  let (neg, rest) := signOf (stripBlanks s.toList)
  let name := lowerText rest
  if name = "inf" ∨ name = "infinity" then some (.infinite neg)
  else if name = "nan" then some .nan
  else (decimalParts rest).map fun d => doubleOfParts neg d.scaled.1 d.scaled.2

/-! ## Complex numbers -/

def exponentStart (cs : List Char) : Int × List Char :=
  match cs with
  | c :: rest =>
    if c = 'e' ∨ c = 'E' then
      let (neg, rest) := signOf rest
      match digitRun 0 0 rest with
      | (n, _ + 1, rest) => (signed neg n, rest)
      | _ => (0, cs)
    else (0, cs)
  | [] => (0, [])

def nameStart (neg : Bool) (cs : List Char) : Option (Double × List Char) :=
  if lowerText (cs.take 8) = "infinity" then some (.infinite neg, cs.drop 8)
  else if lowerText (cs.take 3) = "inf" then some (.infinite neg, cs.drop 3)
  else if lowerText (cs.take 3) = "nan" then some (.nan, cs.drop 3)
  else none

def doubleStart (cs : List Char) : Option (Double × List Char) :=
  let (neg, rest) := signOf cs
  let (whole, count, rest') := digitRun 0 0 rest
  let (all, places, rest') := match rest' with
    | '.' :: more =>
      let (all, places, more) := digitRun 0 0 more
      if count + places = 0 then (0, 0, rest') else (all, places, more)
    | rest' => (0, 0, rest')
  if count + places = 0 then nameStart neg rest
  else
    let (e, rest') := exponentStart rest'
    some (doubleOfParts neg (whole * tenPow places + all) (e - (places : Int)), rest')

def unitMark : List Char → Option (List Char)
  | 'j' :: rest => some rest
  | 'J' :: rest => some rest
  | _ => none

/-- An imaginary part: a signed double or a sign alone before the unit. -/
def imaginaryStart (cs : List Char) : Option (Double × List Char) :=
  match doubleStart cs with
  | some (y, rest) => (unitMark rest).map fun rest => (y, rest)
  | none =>
    let (neg, rest) := signOf cs
    (unitMark rest).map fun rest => (if neg then Double.one.neg else .one, rest)

/-- The two parts of a complex number at the start of a text: a real part, an imaginary part, or
both with a sign between them. -/
def complexStart (cs : List Char) : Option ((Double × Double) × List Char) :=
  match doubleStart cs with
  | none => (imaginaryStart cs).map fun p => ((.zero, p.1), p.2)
  | some (x, rest) =>
    match rest with
    | '+' :: _ => (imaginaryStart rest).map fun p => ((x, p.1), p.2)
    | '-' :: _ => (imaginaryStart rest).map fun p => ((x, p.1), p.2)
    | rest =>
      match unitMark rest with
      | some rest => some ((.zero, x), rest)
      | none => some ((x, .zero), rest)

/-- A complex text: blanks around it, perhaps parentheses with blanks inside. -/
def readComplex? (s : String) : Option (Double × Double) :=
  match stripBlanks s.toList with
  | '(' :: rest =>
    match complexStart (rest.dropWhile isBlank) with
    | some (z, rest) => if rest.dropWhile isBlank = [')'] then some z else none
    | none => none
  | cs =>
    match complexStart cs with
    | some (z, []) => some z
    | _ => none

end Orthant
