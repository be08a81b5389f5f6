import Orthant.Form.Function
import Orthant.Form.Logic

/-! # Expressions

What a text says, operation by operation. `Expr.toForm` carries the operations out.
-/

namespace Orthant

inductive Expr
  | number (c : Number)
  | imaginary
  | unbounded
  | name (s : String)
  | negate (a : Expr)
  | plus (a b : Expr)
  | minus (a b : Expr)
  | times (a b : Expr)
  | divide (a b : Expr)
  | remainder (a b : Expr)
  | wholePart (a b : Expr)
  | power (base exponent : Expr)
  | factorial (a : Expr)
  | call (function : String) (arguments : List Expr)
  | truth (b : Bool)
  | relate (r : Relation) (a b : Expr)
  /-- Whether two expressions have the same form, or whether they do not. -/
  | same (expected : Bool) (a b : Expr)
  /-- The second part if the first one counts as true, otherwise the first one. -/
  | both (a b : Expr)
  /-- The first part if it counts as true, otherwise the second one. -/
  | either (a b : Expr)
  | deny (a : Expr)
  | join (a b : Expr)
  | complement (a : Expr)
  /-- Several expressions side by side. -/
  | items (as : List Expr)
  /-- A thing without any part that is asked for. -/
  | bare
  /-- A part that cannot be computed with. -/
  | unusable (cause : Fault)

namespace Expr

/-- Inserts a text into a sorted list of distinct texts. -/
def insertName (s : String) : List String → List String
  | [] => [s]
  | t :: ts => if s < t then s :: t :: ts else if s = t then t :: ts else t :: insertName s ts

def distinctNames (names : List String) : List String := names.foldr insertName []

mutual

def names : Expr → List String
  | number _ => []
  | imaginary => []
  | unbounded => []
  | name s => [s]
  | negate a => a.names
  | plus a b => a.names ++ b.names
  | minus a b => a.names ++ b.names
  | times a b => a.names ++ b.names
  | divide a b => a.names ++ b.names
  | remainder a b => a.names ++ b.names
  | wholePart a b => a.names ++ b.names
  | power a b => a.names ++ b.names
  | factorial a => a.names
  | call _ as => namesOf as
  | truth _ => []
  | relate _ a b => a.names ++ b.names
  | same _ a b => a.names ++ b.names
  | both a b => a.names ++ b.names
  | either a b => a.names ++ b.names
  | deny a => a.names
  | join a b => a.names ++ b.names
  | complement a => a.names
  | items as => namesOf as
  | bare => []
  | unusable _ => []

def namesOf : List Expr → List String
  | [] => []
  | a :: as => a.names ++ namesOf as

end

def operand (e : Expr) (form : Except Error Form) : Except Error Form :=
  match e with
  | items _ => fail .kind
  | bare => fail .kind
  | _ => do
    let f ← form
    if f.isLogical then fail .kind else .ok f

mutual

def toForm : Expr → Except Error Form
  | number c => .ok (.number c)
  | imaginary => .ok .imaginary
  | unbounded => .ok .unbounded
  | name s => .ok (.name s)
  | negate a => do .ok (← operand a a.toForm).neg
  | plus a b => do .ok ((← operand a a.toForm).add (← operand b b.toForm))
  | minus a b => do .ok ((← operand a a.toForm).sub (← operand b b.toForm))
  | times a b => do .ok ((← operand a a.toForm).mul (← operand b b.toForm))
  | divide a b => do .ok ((← operand a a.toForm).div (← operand b b.toForm))
  | remainder a b => do (← operand a a.toForm).remainder (← operand b b.toForm)
  | wholePart a b => do (← operand a a.toForm).wholePart (← operand b b.toForm)
  | power a b => do .ok ((← operand a a.toForm).pow (← operand b b.toForm))
  | factorial a => do .ok (← operand a a.toForm).factorial
  | call f as => do Form.apply f (← formsOf as)
  | truth b => .ok (.truth b)
  | relate r a b => do Form.relate r (← operand a a.toForm) (← operand b b.toForm)
  | same expected a b => do .ok (.truth ((← a.toForm).same (← b.toForm) == expected))
  | both a b => do
    let f ← a.toForm
    if ← f.counts then b.toForm else .ok f
  | either a b => do
    let f ← a.toForm
    if ← f.counts then .ok f else b.toForm
  | deny a => do .ok (.truth !(← (← a.toForm).counts))
  | join a b => do (← a.toForm).join (← b.toForm)
  | complement a => do (← a.toForm).complement
  | items _ => fail .kind
  | bare => fail .part
  | unusable cause => fail cause

def formsOf : List Expr → Except Error (List Form)
  | [] => .ok []
  | a :: as => do .ok ((← a.toForm) :: (← formsOf as))

end

end Expr

end Orthant
