import Orthant.Box.Ball

/-! # Rectangles

Closed rectangles of the complex plane with rational corners.
-/

namespace Orthant

structure Rectangle where
  reLo : Rat
  reHi : Rat
  imLo : Rat
  imHi : Rat
  deriving DecidableEq

namespace Rectangle

def text (r : Rectangle) : Except Error String := do
  let a ← toDouble r.reLo
  let b ← toDouble r.reHi
  let c ← toDouble r.imLo
  let d ← toDouble r.imHi
  .ok ("[" ++ a.text ++ ", " ++ b.text ++ "] + [" ++ c.text ++ ", " ++ d.text ++ "]i")

/-- A rectangle whose sides run upward. -/
def checked (r : Rectangle) : Except Error Rectangle :=
  if r.reHi < r.reLo ∨ r.imHi < r.imLo then do
    let t ← r.text
    .error (.emptyRectangle t)
  else .ok r

def ofCorners : List Value → Except Error Rectangle
  | [a, b] => do checked ⟨← a.toRat, ← b.toRat, 0, 0⟩
  | [a, b, c] => do checked ⟨← a.toRat, ← b.toRat, ← c.toRat, 0⟩
  | [a, b, c, d] => do checked ⟨← a.toRat, ← b.toRat, ← c.toRat, ← d.toRat⟩
  | _ => fail .kind

def ofBalls (re im : String) : Except Error Rectangle := do
  let (a, b) ← Ball.bounds re
  let (c, d) ← Ball.bounds im
  checked ⟨a, b, c, d⟩

def ofBallValues : List Value → Except Error Rectangle
  | [re, im] => do
    let (a, b) ← Ball.boundsOf re
    let (c, d) ← Ball.boundsOf im
    checked ⟨a, b, c, d⟩
  | _ => fail .kind

/-- Whether the point `re + im * i` lies in the rectangle. -/
def contains (r : Rectangle) (re im : Rat) : Bool :=
  r.reLo ≤ re && re ≤ r.reHi && r.imLo ≤ im && im ≤ r.imHi

/-- Whether the rectangle holds the number that a value stands for. -/
def containsValue (r : Rectangle) (v : Value) : Except Error Bool := do
  let z ← v.toComplex
  let re ← z.re.toRat
  let im ← z.im.toRat
  .ok (r.contains re im)

end Rectangle

end Orthant
