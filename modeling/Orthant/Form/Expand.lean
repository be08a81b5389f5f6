import Orthant.Form.Arithmetic

/-! # Expansion

Positive powers of sums and products of sums are multiplied out, inner parts first. Powers come
before products. In a product the sums are split in halves, each half is multiplied out and
collected, and then the halves are multiplied.
-/

namespace Orthant

/-- The number of ways to choose `k` of `n`, built up from smaller choices. -/
def choose (n : Nat) : Nat → Nat
  | 0 => 1
  | k + 1 => choose n k * (n - k) / (k + 1)

/-- The ways to write `n` as an ordered sum of `parts` numbers, the last part growing slowest. -/
def compositions : Nat → Nat → List (List Nat)
  | 0, n => if n = 0 then [[]] else []
  | parts + 1, n => (List.range (n + 1)).flatMap fun k => (compositions parts (n - k)).map (· ++ [k])

/-- The ways to write `n` as a sum of two numbers, from the ends to the middle. -/
def pairCompositions (n : Nat) : List (List Nat) :=
  [0, n] :: [n, 0] :: ((List.range (n / 2)).map (· + 1)).flatMap fun k =>
    if 2 * k = n then [[k, k]] else [[k, n - k], [n - k, k]]

def multinomial : List Nat → Nat
  | [] => 1
  | k :: ks => choose (k + ks.sum) k * multinomial ks

namespace Form

/-! ## Powers of sums -/

def multinomialTerm (ts : List Form) (ks : List Nat) : Form :=
  times (ofInt (multinomial ks) :: ((ts.zip ks).filter fun p => p.2 ≠ 0).map fun p =>
    p.1.pow (ofInt p.2))

def multinomialSum (ts : List Form) (n : Nat) : Form :=
  let kss := if ts.length = 2 then pairCompositions n else compositions ts.length n
  sumOf (kss.map (multinomialTerm ts))

def complexPower (a b c d : Rat) (n : Nat) : Nat → Rat × Rat
  | 0 => (c, d)
  | fuel + 1 =>
    let (c, d) := if n % 2 = 1 then (a * c - b * d, b * c + a * d) else (c, d)
    if n ≤ 1 then (c, d) else complexPower (a * a - b * b) (2 * a * b) c d (n / 2) fuel

def ofParts (re im : Number) : Form := sumOf [number re, times [number im, imaginary]]

def expandSumPower (ts : List Form) (n : Nat) : Form :=
  match complexParts? ts with
  | some (.exact a, .exact b) =>
    let (c, d) := complexPower a b 1 0 n (n + 1)
    ofParts (.exact c) (.exact d)
  | _ => multinomialSum ts n

def expandPower? : Form → Option Form
  | power (sum ts) (number (.exact r)) =>
    if r.den = 1 then
      if 1 < r.num then some (expandSumPower ts r.num.toNat)
      else if r.num < -1 then some (one.div (expandSumPower ts r.num.natAbs))
      else none
    else if (r.den : Int) < r.num then
      let n := r.num / (r.den : Int)
      let radical := (sum ts).pow (ofRat (r - n))
      let whole := match (sum ts).pow (ofInt n) with
        | power (sum us) (number (.exact m)) => expandSumPower us m.num.toNat
        | f => f
      some (sumOf (whole.terms.map fun t => t.mul radical))
    else none
  | power (number c) (sum ts) =>
    if c.isZero then none
    else
      let (fixed, open') := ts.partition isNumber
      if fixed.isEmpty then none
      else some (times (fixed.map (fun t => (number c).pow t) ++ [(number c).pow (ofTerms open')]))
  | _ => none

/-! ## Products of sums -/

def splitFactor : Form → List Form × List Form
  | power b (number c) =>
    if c.isNegative then
      ([], [if c = .ofInt (-1) then b else b.pow (number c.neg)])
    else ([power b (number c)], [])
  | number (.exact q) =>
    if q.den = 1 then ([ofRat q], [])
    else (if q.num = 1 then [] else [ofInt q.num], [ofInt q.den])
  | f => ([f], [])

def fraction (f : Form) : Form × Form :=
  let parts := f.factors.map splitFactor
  (times (parts.flatMap Prod.fst), times (parts.flatMap Prod.snd))

def productTerms (sums : List (List Form)) : Nat → List Form
  | 0 => []
  | fuel + 1 =>
    match sums with
    | [] => [one]
    | [ts] => ts
    | sums =>
      let left := productTerms (sums.take (sums.length / 2)) fuel
      let right := productTerms (sums.drop (sums.length / 2)) fuel
      (sumOf (left.flatMap fun a => right.map fun b => a.mul b)).terms

def expandPlain (fs : List Form) : Form :=
  let sums := fs.filterMap fun f => match f with
    | sum ts => some ts
    | _ => none
  if sums.isEmpty then product fs
  else
    let plain := times (fs.filter fun f => !f.isSum)
    sumOf ((productTerms sums (sums.length + 1)).map fun t => plain.mul t)

/-- A product over a product: numerator and denominator are multiplied out on their own. -/
def expandProduct : Form → Nat → Form
  | f, 0 => f
  | f, fuel + 1 =>
    match f with
    | product fs =>
      match fraction (product fs) with
      | (n, product ds) =>
        let n := if n.isProduct then expandProduct n fuel else n
        match n.div (expandProduct (product ds) fuel) with
        | product gs => expandPlain gs
        | g => g
      | _ => expandPlain fs
    | f => f

def expandProduct? (f : Form) : Option Form :=
  if f.isProduct then some (expandProduct f 2) else none

/-! ## The whole form -/

mutual

/-- Applies a rule to all parts of a form, inner parts first. The second part tells whether
something changed. -/
def everywhere (rule : Form → Option Form) (f : Form) : Form × Bool :=
  let (f, changed) := match f with
    | power b e =>
      let (b, c) := everywhere rule b
      let (e, d) := everywhere rule e
      (if c || d then b.pow e else power b e, c || d)
    | product fs =>
      let (gs, c) := everywhereIn rule fs
      (if c then times gs else product gs, c)
    | sum ts =>
      let (us, c) := everywhereIn rule ts
      (if c then sumOf us else sum us, c)
    | call g as =>
      let (bs, c) := everywhereIn rule as
      (call g bs, c)
    | f => (f, false)
  match rule f with
  | some g => (g, changed || !f.same g)
  | none => (f, changed)

def everywhereIn (rule : Form → Option Form) (fs : List Form) : List Form × Bool :=
  match fs with
  | [] => ([], false)
  | f :: fs =>
    let (g, c) := everywhere rule f
    let (gs, d) := everywhereIn rule fs
    (g :: gs, c || d)

end

def expandRound (f : Form) : Form :=
  (everywhere expandProduct? (everywhere expandPower? f).1).1

def expandRounds (f : Form) : Nat → Form
  | 0 => f
  | fuel + 1 =>
    let g := expandRound f
    if g.same f then g else expandRounds g fuel

def expand (f : Form) : Form := expandRounds (expandRound f) depth

end Form

end Orthant
