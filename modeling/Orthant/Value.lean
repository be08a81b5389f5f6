import Orthant.Number.Shortest
import Orthant.Text.Numeral

/-! # Loosely typed values

Settings, coordinates and corners arrive as values of several kinds. A `Quantity` is a real number
that remembers how it was given; its comparisons are exact across kinds. A `Value` is anything that
can be given.
-/

namespace Orthant

inductive Quantity
  | bool (b : Bool)
  | int (n : Int)
  | rational (q : Rat)
  | double (x : Double)
  deriving DecidableEq

namespace Quantity

/-- The place of a quantity relative to a rational, none for `nan`. -/
def compare? (x : Quantity) (r : Rat) : Option Ordering :=
  let against (q : Rat) : Ordering := if q < r then .lt else if r < q then .gt else .eq
  match x with
  | bool b => some (against (if b then 1 else 0))
  | int n => some (against n)
  | rational q => some (against q)
  | double .nan => none
  | double (.infinite s) => some (if s then .lt else .gt)
  | double .negZero => some (against 0)
  | double (.finite q) => some (against q)

def atLeast (x : Quantity) (r : Rat) : Bool :=
  match x.compare? r with
  | some .lt => false
  | some _ => true
  | none => false

def above (x : Quantity) (r : Rat) : Bool := x.compare? r == some .gt

def below (x : Quantity) (r : Rat) : Bool := x.compare? r == some .lt

def text : Quantity → String
  | bool b => if b then "True" else "False"
  | int n => toString n
  | rational q => ratText q
  | double x => x.text

/-- Only zero does not hold; `nan` does. -/
def holds : Quantity → Bool
  | bool b => b
  | int n => n != 0
  | rational q => q != 0
  | double x => !x.same .zero

end Quantity

/-- A complex number with double parts. -/
structure Complex where
  re : Double
  im : Double
  deriving DecidableEq

inductive Value
  | absent
  | real (x : Quantity)
  | complex (z : Complex)
  | text (s : String)
  | list (xs : List Value)

namespace Value

def ofInt (n : Int) : Value := real (.int n)

def ofBool (b : Bool) : Value := real (.bool b)

def getD (v other : Value) : Value :=
  match v with
  | absent => other
  | v => v

def written : Value → String
  | text s => s
  | real x => x.text
  | _ => "None"

/-- Nothing, zero, the empty text and the empty list do not hold; all else does. -/
def holds : Value → Bool
  | absent => false
  | real x => x.holds
  | complex z => !(z.re.same .zero && z.im.same .zero)
  | text s => s != ""
  | list xs => !xs.isEmpty

end Value

end Orthant
