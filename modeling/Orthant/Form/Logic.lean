import Orthant.Error
import Orthant.Form.Arithmetic

/-! # Truth values and statements

Numbers are compared outright; a relation with a name in it is a statement, which neither holds nor
fails. Names, truth values and statements can be joined to statements.
-/

namespace Orthant

inductive Relation
  | less
  | atMost
  | greater
  | atLeast

namespace Relation

/-- Whether two numbers stand in a relation. -/
def holds (r : Relation) (a b : Number) : Bool :=
  match r with
  | less => !b.le a
  | atMost => a.le b
  | greater => !a.le b
  | atLeast => b.le a

end Relation

namespace Form

/-- Whether a form counts as true. Zero does not; a statement cannot be decided. -/
def counts : Form → Except Error Bool
  | number c => .ok (!c.isZero)
  | truth b => .ok b
  | statement _ => fail .kind
  | _ => .ok true

/-- What has no place in an order: a truth value, an undefined number, or one that is not real. -/
def isUnordered (f : Form) : Bool :=
  match f with
  | number c => c == .undefined
  | unbounded => true
  | f => f.isLogical || match f.complex? with
    | some (_, im) => !im.isZero
    | none => false

def relate (r : Relation) (a b : Form) : Except Error Form :=
  if a.isUnordered || b.isUnordered then fail .kind
  else match a, b with
    | number c, number d => .ok (truth (r.holds c d))
    | a, b => .ok (statement [a, b])

def isProposition (f : Form) : Bool := f.isName || f.isLogical

def join (a b : Form) : Except Error Form :=
  if a.isProposition && b.isProposition then .ok (statement [a, b]) else fail .kind

def complement : Form → Except Error Form
  | truth b => .ok (truth !b)
  | f => if f.isProposition then .ok (statement [f]) else fail .kind

end Form

end Orthant
