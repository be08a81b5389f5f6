import Orthant.Expr.Basic
import Orthant.Expr.Token

/-! # Reading expressions

From loose to tight: `or`, `and`, `not`, comparisons, joins, sums, products, signs, powers, what
follows an atom. Powers associate to the right and bind tighter than a sign on their left; a name
directly before a parenthesis is a function. What is applied without being a function, and a list
in parentheses, can be read but not computed with.
-/

namespace Orthant

namespace Expr

/-- The imaginary unit, the infinities and the truth values have names of their own. -/
def ofWord (s : String) : Expr :=
  if s = "I" then imaginary
  else if s = "oo" then number (.infinite false)
  else if s = "zoo" then unbounded
  else if s = "nan" then number .undefined
  else if s = "True" ∨ s = "true" then truth true
  else if s = "False" ∨ s = "false" then truth false
  else if s = "None" then bare
  else if Vocabulary.hasMeaning s then unusable .kind
  else name s

/-- A word with arguments. What has a value of its own is no function. -/
def ofCall (s : String) (as : List Expr) : Expr :=
  match ofWord s with
  | name s => call s as
  | unusable _ => call s as
  | _ => unusable .kind

def relation? : Token → Option Relation
  | .less => some .less
  | .atMost => some .atMost
  | .greater => some .greater
  | .atLeast => some .atLeast
  | _ => none

def comparison? (t : Token) : Option (Expr → Expr → Expr) :=
  match relation? t with
  | some r => some (relate r)
  | none =>
    if t = .same then some (same true) else if t = .different then some (same false) else none

def factorOperation? : Token → Option (Expr → Expr → Expr)
  | .star => some times
  | .slash => some divide
  | .slashes => some wholePart
  | .percent => some remainder
  | .atSign => some fun _ _ => unusable .kind
  | _ => none

mutual

def readEither (fuel : Nat) (ts : List Token) : Option (Expr × List Token) :=
  match fuel with
  | 0 => none
  | fuel + 1 => do
    let (a, ts) ← readBoth fuel ts
    readEitherRest fuel a ts

def readEitherRest (fuel : Nat) (a : Expr) (ts : List Token) : Option (Expr × List Token) :=
  match fuel, ts with
  | fuel + 1, .orWord :: ts => do
    let (b, ts) ← readBoth fuel ts
    readEitherRest fuel (either a b) ts
  | _, ts => some (a, ts)

def readBoth (fuel : Nat) (ts : List Token) : Option (Expr × List Token) :=
  match fuel with
  | 0 => none
  | fuel + 1 => do
    let (a, ts) ← readDeny fuel ts
    readBothRest fuel a ts

def readBothRest (fuel : Nat) (a : Expr) (ts : List Token) : Option (Expr × List Token) :=
  match fuel, ts with
  | fuel + 1, .andWord :: ts => do
    let (b, ts) ← readDeny fuel ts
    readBothRest fuel (both a b) ts
  | _, ts => some (a, ts)

def readDeny (fuel : Nat) (ts : List Token) : Option (Expr × List Token) :=
  match fuel, ts with
  | 0, _ => none
  | fuel + 1, .notWord :: ts => (readDeny fuel ts).map fun (a, ts) => (deny a, ts)
  | fuel + 1, ts => do
    let (a, ts) ← readJoin fuel ts
    readCompared fuel none a ts

/-- Comparisons after a first part; `found` is the chain so far, which ends with that part. -/
def readCompared (fuel : Nat) (found : Option Expr) (a : Expr) (ts : List Token) :
    Option (Expr × List Token) :=
  match fuel, ts with
  | fuel + 1, t :: ts =>
    match comparison? t with
    | some f => do
      let (b, ts) ← readJoin fuel ts
      let link := f a b
      readCompared fuel (some (match found with
        | some e => both e link
        | none => link)) b ts
    | none => some (found.getD a, t :: ts)
  | _, ts => some (found.getD a, ts)

def readJoin (fuel : Nat) (ts : List Token) : Option (Expr × List Token) :=
  match fuel with
  | 0 => none
  | fuel + 1 => do
    let (a, ts) ← readMeet fuel ts
    readJoinRest fuel a ts

def readJoinRest (fuel : Nat) (a : Expr) (ts : List Token) : Option (Expr × List Token) :=
  match fuel, ts with
  | fuel + 1, .bar :: ts => do
    let (b, ts) ← readMeet fuel ts
    readJoinRest fuel (join a b) ts
  | _, ts => some (a, ts)

def readMeet (fuel : Nat) (ts : List Token) : Option (Expr × List Token) :=
  match fuel with
  | 0 => none
  | fuel + 1 => do
    let (a, ts) ← readSum fuel ts
    readMeetRest fuel a ts

/-- Parts joined more tightly, after the first one. -/
def readMeetRest (fuel : Nat) (a : Expr) (ts : List Token) : Option (Expr × List Token) :=
  match fuel, ts with
  | fuel + 1, .ampersand :: ts => do
    let (b, ts) ← readSum fuel ts
    readMeetRest fuel (join a b) ts
  | _, ts => some (a, ts)

def readSum (fuel : Nat) (ts : List Token) : Option (Expr × List Token) :=
  match fuel with
  | 0 => none
  | fuel + 1 => do
    let (a, ts) ← readProduct fuel ts
    readSumRest fuel a ts

def readSumRest (fuel : Nat) (a : Expr) (ts : List Token) : Option (Expr × List Token) :=
  match fuel, ts with
  | fuel + 1, .plus :: ts => do
    let (b, ts) ← readProduct fuel ts
    readSumRest fuel (plus a b) ts
  | fuel + 1, .minus :: ts => do
    let (b, ts) ← readProduct fuel ts
    readSumRest fuel (minus a b) ts
  | _, ts => some (a, ts)

def readProduct (fuel : Nat) (ts : List Token) : Option (Expr × List Token) :=
  match fuel with
  | 0 => none
  | fuel + 1 => do
    let (a, ts) ← readSigned fuel ts
    readProductRest fuel a ts

def readProductRest (fuel : Nat) (a : Expr) (ts : List Token) : Option (Expr × List Token) :=
  match fuel, ts with
  | fuel + 1, t :: ts =>
    match factorOperation? t with
    | some f => do
      let (b, ts) ← readSigned fuel ts
      readProductRest fuel (f a b) ts
    | none => some (a, t :: ts)
  | _, ts => some (a, ts)

def readSigned (fuel : Nat) (ts : List Token) : Option (Expr × List Token) :=
  match fuel, ts with
  | 0, _ => none
  | fuel + 1, .plus :: ts => readSigned fuel ts
  | fuel + 1, .minus :: ts => (readSigned fuel ts).map fun (a, ts) => (negate a, ts)
  | fuel + 1, .tilde :: ts => (readSigned fuel ts).map fun (a, ts) => (complement a, ts)
  | fuel + 1, ts => do
    let (a, ts) ← readAtom fuel ts
    let (a, ts) ← readTrailers fuel a ts
    match ts with
    | .caret :: ts =>
      let (b, ts) ← readSigned fuel ts
      some (power a b, ts)
    | ts => some (a, ts)

def readAtom (fuel : Nat) (ts : List Token) : Option (Expr × List Token) :=
  match fuel, ts with
  | 0, _ => none
  | _ + 1, .number c :: ts => some (number c, ts)
  | _ + 1, .oversized :: ts => some (unusable .value, ts)
  | fuel + 1, .word f :: .opening :: ts => do
    let (as, ts) ← readList fuel .closing ts
    some (ofCall f as, ts)
  | _ + 1, .word s :: ts => some (ofWord s, ts)
  | _ + 1, .opening :: .closing :: ts => some (items [], ts)
  | fuel + 1, .opening :: ts => do
    let (a, ts) ← readEither fuel ts
    match ts with
    | .closing :: ts => some (a, ts)
    | .comma :: ts =>
      let (as, ts) ← readList fuel .closing ts
      some (items (a :: as), ts)
    | _ => none
  | fuel + 1, .openingBracket :: ts => do
    let (_, ts) ← readList fuel .closingBracket ts
    some (bare, ts)
  | _, _ => none

/-- What follows an atom: factorial signs, at most two of them, further arguments, places in
brackets and parts after a dot. -/
def readTrailers (fuel : Nat) (a : Expr) (ts : List Token) : Option (Expr × List Token) :=
  match fuel, ts with
  | 0, ts => some (a, ts)
  | _ + 1, .bang :: .bang :: .bang :: _ => none
  | fuel + 1, .bang :: .bang :: ts => readTrailers fuel (call "factorial2" [a]) ts
  | fuel + 1, .bang :: ts => readTrailers fuel (factorial a) ts
  | fuel + 1, .opening :: ts => do
    let (_, ts) ← readList fuel .closing ts
    readTrailers fuel (unusable .kind) ts
  | fuel + 1, .openingBracket :: ts => do
    let (as, ts) ← readList fuel .closingBracket ts
    if as.isEmpty then none else readTrailers fuel (unusable .kind) ts
  | fuel + 1, .dot :: .word _ :: ts => readTrailers fuel (unusable .part) ts
  | _ + 1, ts => some (a, ts)

/-- Items separated by commas, up to a closing bracket. -/
def readList (fuel : Nat) (last : Token) (ts : List Token) : Option (List Expr × List Token) :=
  match fuel, ts with
  | 0, _ => none
  | _, [] => none
  | fuel + 1, t :: ts =>
    if t = last then some ([], ts)
    else do
      let (a, ts) ← readEither fuel (t :: ts)
      match ts with
      | [] => none
      | u :: ts =>
        if u = last then some ([a], ts)
        else if u = .comma then
          let (as, ts) ← readList fuel last ts
          some (a :: as, ts)
        else none

end

/-- Items without brackets around them, up to the end. -/
def readItems (fuel : Nat) (ts : List Token) : Nat → Option (List Expr)
  | 0 => none
  | count + 1 => do
    if ts.isEmpty then some []
    else
      let (a, ts) ← readEither fuel ts
      match ts with
      | [] => some [a]
      | .comma :: ts => (readItems fuel ts count).map (a :: ·)
      | _ => none

/-- A whole text as an expression. Each token takes at most sixteen nested calls. -/
def read? (s : String) : Option Expr := do
  let ts ← Token.scan s
  let fuel := 16 * ts.length + 16
  let (e, rest) ← readEither fuel ts
  match rest with
  | [] => some e
  | .comma :: rest => (readItems fuel rest ts.length).map fun as => items (e :: as)
  | _ => none

def formOf (s : String) : Except Error Form :=
  match read? s with
  | some e => e.toForm
  | none => fail .malformed

end Expr

end Orthant
