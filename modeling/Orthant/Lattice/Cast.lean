import Orthant.Lattice.Grid

/-! # Arrays of one kind

Entries of mixed kinds are first brought to the narrowest kind that holds them all, and only then
made words. Words beside unsigned words become doubles; a double that is no word becomes the least
word; unsigned words wrap.
-/

namespace Orthant

/-- The kinds of entries, narrow ones first. -/
inductive EntryKind
  | truth
  | word
  | unsigned
  | double
  | complex
  | text
  /-- Entries that keep their own kinds. -/
  | mixed
  deriving DecidableEq

namespace EntryKind

/-- The place in the order in which kinds hold each other. -/
def rank : EntryKind → Nat
  | truth => 0
  | word => 1
  | unsigned => 2
  | double => 3
  | complex => 4
  | text => 5
  | mixed => 6

def join (a b : EntryKind) : EntryKind :=
  match a, b with
  | word, unsigned => double
  | unsigned, word => double
  | a, b => if a.rank ≤ b.rank then b else a

end EntryKind

def unsignedMax : Int := 18446744073709551615

namespace Value

def entryKind : Value → EntryKind
  | real (.bool _) => .truth
  | real (.int n) =>
    if isWord n then .word else if 0 ≤ n && n ≤ unsignedMax then .unsigned else .mixed
  | real (.rational _) => .mixed
  | real (.double _) => .double
  | complex _ => .complex
  | text _ => .text
  | absent => .mixed
  | list _ => .mixed

def arrayKind (vs : List Value) : EntryKind :=
  match vs.map entryKind with
  | [] => .double
  | k :: ks => ks.foldl EntryKind.join k

/-- The word of a double, cut off toward zero; the least one if it is out of range. -/
def wordOfDouble (x : Double) : Int :=
  match x.value? with
  | some q => if isWord (truncate q) then truncate q else wordMin
  | none => wordMin

def castWord (k : EntryKind) (v : Value) : Except Error Int :=
  match k, v with
  | .unsigned, v => do .ok (wrap (← v.toInteger))
  | .double, v => do .ok (wordOfDouble (← v.toDouble))
  | .complex, v => do .ok (wordOfDouble (← v.toComplex).re)
  | _, v => v.toWord

/-- Nested lists as an array of one kind, then as words. -/
def castGrid (v : Value) : Except Error Grid :=
  match v.shape? with
  | none => fail .value
  | some s => do
    let vs := v.leaves
    .ok ⟨s, ← vs.mapM (castWord (arrayKind vs))⟩

/-- Whether an entry of an array of some kind is an integer; `nan` and the infinities are not. -/
def isIntegral (k : EntryKind) (v : Value) : Except Error Bool :=
  match k, v with
  | .complex, _ => fail .kind
  | .text, _ => fail .kind
  | .double, v => do .ok ((← v.toDouble).value?.any fun q => q.den == 1)
  | _, .real (.double x) => .ok (x.value?.any fun q => q.den == 1)
  | _, .real (.rational q) => .ok (q.den == 1)
  | _, .real _ => .ok true
  | _, _ => fail .kind

def allIntegral (v : Value) : Except Error Bool :=
  match v.shape? with
  | none => fail .value
  | some _ => do
    let vs := v.leaves
    .ok ((← vs.mapM (isIntegral (arrayKind vs))).all id)

end Value

end Orthant
