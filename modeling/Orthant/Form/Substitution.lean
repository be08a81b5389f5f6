import Orthant.Error
import Orthant.Form.Arithmetic

/-! # Substitution

A form is put in the place of a name, and what changes is built anew. Several names are replaced one
after the other, so that a form may bring names that are replaced later.
-/

namespace Orthant

namespace Form

def isTruth : Form → Bool
  | truth _ => true
  | _ => false

def isSingular : Form → Bool
  | number c => !c.isFinite
  | unbounded => true
  | _ => false

mutual

/-- A form in the place of a name; none where nothing changes. A truth value has no powers. -/
def replace? (s : String) (new : Form) (f : Form) : Except Error (Option Form) :=
  match f with
  | name t => .ok (if s = t then some new else none)
  | power b e => do
    let b' ← replace? s new b
    let e' ← replace? s new e
    if b'.isNone && e'.isNone then .ok none
    else if (b'.getD b).isTruth then fail .kind
    else .ok (some ((b'.getD b).pow (e'.getD e)))
  | product fs => do .ok ((← replaceIn? s new fs).map times)
  | sum ts => do .ok ((← replaceIn? s new ts).map sumOf)
  | call g as => do .ok ((← replaceIn? s new as).map (call g))
  | _ => .ok none

def replaceIn? (s : String) (new : Form) (fs : List Form) : Except Error (Option (List Form)) :=
  match fs with
  | [] => .ok none
  | f :: fs => do
    let f' ← replace? s new f
    let fs' ← replaceIn? s new fs
    if f'.isNone && fs'.isNone then .ok none else .ok (some (f'.getD f :: fs'.getD fs))

end

def replace (s : String) (new : Form) (f : Form) : Except Error Form := do
  .ok ((← replace? s new f).getD f)

/-- Moves the entries at some places to the front, the last place first. -/
def moveToFront {α : Type} (xs : List α) : List Nat → List α
  | [] => xs
  | i :: is =>
    match xs[i]? with
    | some x => moveToFront (x :: xs.eraseIdx i) is
    | none => moveToFront xs is

/-- Adds a replacement in the order of the names; a later one for the same name counts. -/
def insertReplacement (r : String × Form) : List (String × Form) → List (String × Form)
  | [] => [r]
  | q :: qs =>
    if r.1 < q.1 then r :: q :: qs
    else if r.1 = q.1 then r :: qs
    else q :: insertReplacement r qs

def isIdle (r : String × Form) : Bool :=
  match r.2 with
  | name t => r.1 = t
  | _ => false

/-- Replacements in the order in which they are made: by name, but what is not finite comes to the
front. -/
def inOrder (rs : List (String × Form)) : List (String × Form) :=
  let sorted := (rs.foldl (fun acc r => insertReplacement r acc) []).filter fun r => !isIdle r
  let places := (sorted.zipIdx.filter fun r => r.1.2.isSingular).map Prod.snd
  moveToFront sorted places.reverse

def substitute (rs : List (String × Form)) (f : Form) : Except Error Form :=
  (inOrder rs).foldlM (fun f r => replace r.1 r.2 f) f

end Form

end Orthant
