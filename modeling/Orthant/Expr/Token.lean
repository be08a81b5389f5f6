import Orthant.Number.Basic
import Orthant.Number.Shortest
import Orthant.Text.Word

/-! # Tokens of polynomial texts

Numbers, words, signs and brackets, separated by spaces, tabs and form feeds. Line feeds and blanks
at the ends are left out, and what follows a number sign is a remark.
-/

namespace Orthant

inductive Token
  | number (c : Number)
  /-- A whole number with a decimal exponent that has too many digits to be counted. -/
  | oversized
  | word (s : String)
  | plus
  | minus
  | star
  | slash
  | slashes
  | percent
  | caret
  | bang
  | tilde
  | ampersand
  | bar
  | atSign
  | less
  | atMost
  | greater
  | atLeast
  | same
  | different
  | andWord
  | orWord
  | notWord
  | opening
  | closing
  | openingBracket
  | closingBracket
  | comma
  | dot
  deriving DecidableEq

namespace Token

def digitIn? (base : Nat) (c : Char) : Option Nat :=
  let d := if c.isDigit then c.toNat - 48
    else if 'a' ≤ c ∧ c ≤ 'f' then c.toNat - 87
    else if 'A' ≤ c ∧ c ≤ 'F' then c.toNat - 55
    else 16
  if d < base then some d else none

/-- A run of digits with single underscores between them: its value, the number of digits and what
follows. -/
def digitsIn (base acc count : Nat) : List Char → Nat × Nat × List Char
  | [] => (acc, count, [])
  | '_' :: c :: rest =>
    match count, digitIn? base c with
    | _ + 1, some d => digitsIn base (base * acc + d) (count + 1) rest
    | _, _ => (acc, count, '_' :: c :: rest)
  | c :: rest =>
    match digitIn? base c with
    | some d => digitsIn base (base * acc + d) (count + 1) rest
    | none => (acc, count, c :: rest)

def baseOfMark? (c : Char) : Option Nat :=
  if c = 'x' ∨ c = 'X' then some 16
  else if c = 'o' ∨ c = 'O' then some 8
  else if c = 'b' ∨ c = 'B' then some 2
  else none

/-- Digits of another base; an underscore may follow the mark. -/
def marked? (cs : List Char) : Option (Nat × List Char) :=
  match cs with
  | '0' :: mark :: rest => do
    let base ← baseOfMark? mark
    let rest := match rest with
      | '_' :: c :: more => if (digitIn? base c).isSome then c :: more else rest
      | rest => rest
    match digitsIn base 0 0 rest with
    | (n, _ + 1, rest) => some (n, rest)
    | _ => none
  | _ => none

def exponent? (cs : List Char) : Option (Int × List Char) :=
  match cs with
  | c :: rest =>
    if c = 'e' ∨ c = 'E' then
      let (negative, rest) := match rest with
        | '-' :: rest => (true, rest)
        | '+' :: rest => (false, rest)
        | rest => (false, rest)
      match digitsIn 10 0 0 rest with
      | (n, _ + 1, rest) => some (if negative then -(n : Int) else n, rest)
      | _ => none
    else none
  | [] => none

/-- An inexact number with the bits that its digits need, at least those of fifteen digits. The
digits of a whole number without a point are all counted. -/
def inexact (digits : Nat) (e : Int) (pointed : Bool) : Token :=
  let value := scaleTen digits e
  let whole := value.den = 1 ∧ !pointed
  let places := if whole then max (digitCount digits) (digitCount value.num.natAbs)
    else digitCount digits
  if whole ∧ digitLimit < digitCount value.num.natAbs then oversized
  else
    let k := bitsOfDigits (max 15 places)
    number (.approx k (roundBits k value))

/-- The tokens of a decimal number at the start of a text. A mark of the imaginary unit is a
product with it. An integer has no zeros in front and not too many digits. -/
def decimal? (cs : List Char) : Option (List Token × List Char) :=
  let (whole, count, rest) := digitsIn 10 0 0 cs
  let (all, places, rest, pointed) := match rest with
    | '.' :: after =>
      match digitsIn 10 whole 0 after with
      | (n, k + 1, rest) => (n, k + 1, rest, true)
      | _ => (whole, 0, after, true)
    | _ => (whole, 0, rest, false)
  if count + places = 0 then none
  else
    let (e, rest, scaled) := match exponent? rest with
      | some (e, rest) => (e, rest, true)
      | none => (0, rest, false)
    let isInteger := !pointed && !scaled
    if isInteger ∧ ((cs.head? = some '0' ∧ whole ≠ 0) ∨ digitLimit < count) then none
    else
      let t := if isInteger then number (.ofInt whole) else inexact all (e - (places : Int)) pointed
      match rest with
      | 'j' :: rest => some ([t, star, word "I"], rest)
      | 'J' :: rest => some ([t, star, word "I"], rest)
      | rest => some ([t], rest)

def number? (cs : List Char) : Option (List Token × List Char) :=
  match marked? cs with
  | some (n, rest) => some ([number (.ofInt n)], rest)
  | none => decimal? cs

/-- Words that have a meaning for the whole text, so that they cannot stand in an expression. -/
def reservedWords : List String :=
  ["as", "assert", "async", "await", "break", "class", "continue", "def", "del", "elif", "else",
   "except", "finally", "for", "from", "global", "if", "import", "in", "is", "lambda", "nonlocal",
   "pass", "raise", "return", "try", "while", "with", "yield"]

def ofWord? (s : String) : Option Token :=
  if s = "and" then some andWord
  else if s = "or" then some orWord
  else if s = "not" then some notWord
  else if reservedWords.contains s then none
  else some (word s)

/-- The tokens at the start of a text that does not start with a separator. -/
def next : List Char → Option (List Token × List Char)
  | '+' :: cs => some ([plus], cs)
  | '-' :: cs => some ([minus], cs)
  | '*' :: '*' :: cs => some ([caret], cs)
  | '*' :: cs => some ([star], cs)
  | '/' :: '/' :: cs => some ([slashes], cs)
  | '/' :: cs => some ([slash], cs)
  | '%' :: cs => some ([percent], cs)
  | '^' :: cs => some ([caret], cs)
  | '!' :: '=' :: cs => some ([different], cs)
  | '!' :: cs => some ([bang], cs)
  | '~' :: cs => some ([tilde], cs)
  | '&' :: cs => some ([ampersand], cs)
  | '|' :: cs => some ([bar], cs)
  | '@' :: cs => some ([atSign], cs)
  | '<' :: '=' :: cs => some ([atMost], cs)
  | '<' :: cs => some ([less], cs)
  | '>' :: '=' :: cs => some ([atLeast], cs)
  | '>' :: cs => some ([greater], cs)
  | '=' :: '=' :: cs => some ([same], cs)
  | '(' :: cs => some ([opening], cs)
  | ')' :: cs => some ([closing], cs)
  | '[' :: cs => some ([openingBracket], cs)
  | ']' :: cs => some ([closingBracket], cs)
  | ',' :: cs => some ([comma], cs)
  | '#' :: _ => some ([], [])
  | '.' :: c :: cs => if c.isDigit then number? ('.' :: c :: cs) else some ([dot], c :: cs)
  | c :: cs =>
    if c.isDigit then number? (c :: cs)
    else if isWordStart c then do
      let t ← ofWord? (String.ofList (c :: cs.takeWhile isWordPart))
      some ([t], cs.dropWhile isWordPart)
    else none
  | [] => none

def isSeparator (c : Char) : Bool := c = ' ' || c = '\t' || c = '\x0c'

/-- All tokens of a text; `fuel` bounds their number. -/
def scanFrom (cs : List Char) : Nat → Option (List Token)
  | 0 => if (cs.dropWhile isSeparator).isEmpty then some [] else none
  | fuel + 1 =>
    match cs.dropWhile isSeparator with
    | [] => some []
    | c :: rest => do
      let (ts, rest) ← next (c :: rest)
      (scanFrom rest fuel).map (ts ++ ·)

def nestingLimit : Nat := 199

/-- Whether the nesting stays within the limit, from a depth on. -/
def isShallow (open' : Nat) : List Token → Bool
  | [] => true
  | opening :: ts => open' < nestingLimit && isShallow (open' + 1) ts
  | openingBracket :: ts => open' < nestingLimit && isShallow (open' + 1) ts
  | closing :: ts => isShallow (open' - 1) ts
  | closingBracket :: ts => isShallow (open' - 1) ts
  | _ :: ts => isShallow open' ts

/-- The tokens of a text without the blanks at its ends. -/
def scan (s : String) : Option (List Token) := do
  let cs := stripBlanks (s.toList.filter (· ≠ '\n'))
  let ts ← scanFrom cs cs.length
  if isShallow 0 ts then some ts else none

end Token

end Orthant
