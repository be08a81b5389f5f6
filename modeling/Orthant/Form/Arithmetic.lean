import Orthant.Form.Radical

/-! # Sums, products and powers of forms

Building a sum collects like terms, building a product merges powers of equal bases and distributes
a number over a single sum, building a power evaluates what is a number. Products of several sums
stay as they are. The recursion of the three operations into each other is bounded by a depth that
no expression of practical size reaches.
-/

namespace Orthant

namespace Form

/-! ## Collecting -/

def addConstant (acc : Form) (t : Form) : Form :=
  match acc, t with
  | number c, number d => number (c.add d)
  | number c, unbounded => if c.isFinite then unbounded else number .undefined
  | unbounded, number d => if d.isFinite then unbounded else number .undefined
  | unbounded, unbounded => number .undefined
  | acc, _ => acc

def isConstant : Form → Bool
  | number _ => true
  | unbounded => true
  | _ => false

def isUndefined : Form → Bool
  | number .undefined => true
  | _ => false

def groupTerms : List (Form × Number) → List (Form × List Number)
  | [] => []
  | t :: ts =>
    match groupTerms ts with
    | [] => [(t.1, [t.2])]
    | u :: us => if t.1.same u.1 then (t.1, t.2 :: u.2) :: us else (t.1, [t.2]) :: u :: us

/-- Like terms with their coefficients added from left to right. -/
def collectTerms (ts : List (Form × Number)) : List (Form × Number) :=
  (groupTerms (ts.mergeSort fun a b => order a.1 b.1 != .gt)).map fun g =>
    (g.1, match g.2 with
      | [] => .zero
      | c :: cs => cs.foldl Number.add c)

/-- A number times a form without a number. -/
def scaled (c : Number) (f : Form) : Form :=
  match f with
  | product fs => if c = .one then product fs else product (number c :: fs)
  | f => if c = .one then f else product [number c, f]

def collectSum (ts : List Form) : Form :=
  let constant := (ts.filter isConstant).foldl addConstant zero
  let groups := collectTerms ((ts.filter fun t => !t.isConstant).map fun t =>
    let (c, f) := t.coefficient
    (f, c))
  if constant.isUndefined || groups.any fun g => g.2 == .undefined then number .undefined
  else
    let parts := (groups.filter fun g => !g.2.isZero).map fun g => scaled g.2 g.1
    let parts := match constant with
      | unbounded => parts.filter fun p => !p.names.isEmpty
      | _ => parts
    ofTerms ((if constant.same zero then [] else [constant]) ++ sortParts parts)

/-- The sum of forms: terms of sums come after the terms that stand alone. -/
def sumOf (ts : List Form) : Form :=
  match ts.filter fun t => !t.same zero with
  | [] => zero
  | [t] => t
  | ts => collectSum ((ts.filter fun t => !t.isSum) ++ (ts.filter isSum).flatMap terms)

/-- The factors of nested products, those that stand alone first. -/
def flatFactors (fs : List Form) : Nat → List Form
  | 0 => fs
  | fuel + 1 =>
    let inner := fs.filter isProduct
    if inner.isEmpty then fs
    else (fs.filter fun f => !f.isProduct) ++ flatFactors (inner.flatMap factors) fuel

/-- Exponents of one base, grouped by what their coefficients multiply. -/
def insertExponent (t : Form) (c : Number) : List (Form × Number) → List (Form × Number)
  | [] => [(t, c)]
  | e :: es => if e.1.same t then (e.1, e.2.add c) :: es else e :: insertExponent t c es

def insertPower (b : Form) (t : Form) (c : Number) :
    List (Form × List (Form × Number)) → List (Form × List (Form × Number))
  | [] => [(b, [(t, c)])]
  | p :: ps => if p.1.same b then (p.1, insertExponent t c p.2) :: ps else p :: insertPower b t c ps

/-- The pairs of base and exponent with exponents of equal bases added. -/
def gatherPowers (ps : List (Form × Form)) : List (Form × Form) :=
  let groups := ps.foldl (fun acc p =>
    let (c, t) := p.2.coefficient
    if p.2.same zero then insertPower p.1 one .zero acc else insertPower p.1 t c acc) []
  groups.flatMap fun g => g.2.map fun e =>
    (g.1, if e.1.isOne then number e.2 else if e.2.isZero then zero else scaled e.2 e.1)

/-! ## Powers of numbers -/

def imaginaryPower (n : Int) : Form :=
  match (n % 4).toNat with
  | 0 => one
  | 1 => imaginary
  | 2 => ofInt (-1)
  | _ => product [ofInt (-1), imaginary]

/-- An inexact number to a fractional power: a half-integer power of a negative number is
imaginary, other powers of negative numbers stay. -/
def inexactPower (k : Nat) (q t : Rat) : Form :=
  if q = 0 then (if 0 < t then number (.approx k 0) else unbounded)
  else if t.den = 1 then number (.approx k (Binary.pow k q t.num))
  else if 0 < q then number (.approx k (Binary.powFraction k q t))
  else if t.den = 2 then
    let r := if t.num = 1 then Binary.sqrt k (-q) else Binary.pow k (Binary.sqrt (k + 10) (-q)) t.num
    match (t.num % 4).toNat with
    | 1 => product [number (.approx k r), imaginary]
    | _ => product [number (.approx k (-r)), imaginary]
  else power (number (.approx k q)) (number (.approx k t))

def unitRoot (r : Rat) : Form :=
  if r = mkRat 1 2 then imaginary else power (ofInt (-1)) (ofRat r)

/-- The factors of a power of a positive integer with a positive fraction as exponent. -/
def rootFactors (n : Nat) (e : Rat) : List Form :=
  match exactRoot? e.den n with
  | some r => [ofInt (Nat.pow r e.num.toNat)]
  | none =>
    let r := Radical.ofPower n e.num.toNat e.den
    (if r.whole = 1 then [] else [ofInt r.whole]) ++
      r.parts.map (fun p => power (ofInt p.1) (ofRat p.2)) ++
      (if r.radicand = 1 then [] else [power (ofInt r.radicand) (ofRat r.exponent)])

/-- The factors of a power of a rational other than zero with a fraction as exponent. Denominators
go under a root in the numerator. -/
def fractionFactors (q e : Rat) : List Form :=
  let whole := e.num / (e.den : Int)
  let sign := if q < 0 then [ofInt (if whole % 2 = 0 then 1 else -1), unitRoot (e - whole)] else []
  let (p, e) := if e < 0 then (q⁻¹, -e) else (q, e)
  let n := p.num.natAbs
  let above := if n = 1 then [] else rootFactors n e
  let below := if p.den = 1 then []
    else
      let whole := e.num / (e.den : Int) + 1
      [ofRat (mkRat 1 (Nat.pow p.den whole.toNat))] ++ rootFactors p.den ((whole : Rat) - e)
  sign ++ above ++ below

def infinitePower (negative : Bool) (e : Number) : Form :=
  if e.isPositive then
    if negative then
      match e.integer? with
      | some n => number (.infinite (n % 2 != 0))
      | none => power (number (.infinite negative)) (number e)
    else number (.infinite false)
  else zero

/-! ## Products and powers -/

/-- The finished product of a constant and other factors: numbers among them join the constant,
which is distributed over a single sum by `distribute`. -/
def finishProduct (distribute : Number → List Form → Form) (constant : Form) (parts : List Form) :
    Form :=
  let constant := (parts.filter isNumber).foldl (fun c f =>
    match c, f with
    | number c, number d => number (c.mul d)
    | c, _ => c) constant
  let parts := parts.filter fun f => !f.isNumber
  match constant with
  | number c =>
    if c = .undefined then number .undefined
    else if c.isZero then
      if parts.any fun p => p.same unbounded then number .undefined else number c
    else
      match sortParts parts with
      | [sum ts] =>
        if c = .one then sum ts
        else if c.isFinite then distribute c ts else product [number c, sum ts]
      | fs => if c = .one then ofFactors fs else ofFactors (number c :: fs)
  | _ => ofFactors (unbounded :: sortParts (parts.filter fun p => !p.names.isEmpty))

def mulConstant (acc : Form) (f : Form) : Form :=
  match acc, f with
  | number c, number d => number (c.mul d)
  | number c, unbounded => if c.isZero || c == .undefined then number .undefined else unbounded
  | unbounded, number d => if d.isZero || d == .undefined then number .undefined else unbounded
  | unbounded, unbounded => unbounded
  | acc, _ => acc

/-- The exponent of minus one that an imaginary unit, or a power of a negative number, brings. -/
def turnOf : Form → Rat
  | imaginary => mkRat 1 2
  | power (number (.exact q)) (number (.exact e)) => if q < 0 then e else 0
  | _ => 0

/-- The base and the exponent of a fractional power of a number; its sign is a turn. -/
def numericRoot? : Form → Option (Rat × Rat)
  | power (number (.exact q)) (number (.exact e)) =>
    if 0 < e ∧ e.den ≠ 1 then some (if q < 0 then -q else q, e) else none
  | _ => none

def insertRoot (r : Rat × Rat) : List (Rat × Rat) → List (Rat × Rat)
  | [] => [r]
  | s :: ss => if s.1 = r.1 then (s.1, s.2 + r.2) :: ss else s :: insertRoot r ss

def insertRadicand (r : Rat × Rat) : List (Rat × Rat) → List (Rat × Rat)
  | [] => [r]
  | s :: ss => if s.2 = r.2 then (s.1 * r.1, s.2) :: ss else s :: insertRadicand r ss

def isExponential : Form → Bool
  | power (number c) (number _) => c == .undefined
  | power (number c) _ => c.isPositive
  | _ => false

def turnFactors (turn : Rat) : List Form :=
  let whole := turn.num / (turn.den : Int)
  let rest := turn - whole
  (if whole % 2 = 0 then [] else [ofInt (-1)]) ++ (if rest = 0 then [] else [unitRoot rest])

mutual

def distribute (fuel : Nat) (c : Number) (ts : List Form) : Form :=
  match fuel with
  | 0 => product [number c, sum ts]
  | fuel + 1 => sumOf (ts.map fun t => productOf fuel [number c, t])

/-- An exact number times a term, keeping the term's other factors as they are. -/
def keepCoefficient (fuel : Nat) (c : Rat) (f : Form) : Form :=
  match fuel with
  | 0 => product [ofRat c, f]
  | fuel + 1 =>
    if c = -1 then negate fuel f
    else match f with
      | product (number d :: fs) =>
        let e := d.mul (.exact c)
        if e.isFinite && e.value == 1 then ofFactors fs else product (number e :: fs)
      | product fs => product (ofRat c :: fs)
      | number d => number (d.mul (.exact c))
      | f => product [ofRat c, f]

/-- The negative of a form. The sign of a product goes into its number, or into its first factor
when that is a sum. -/
def negate (fuel : Nat) (f : Form) : Form :=
  match fuel with
  | 0 => product [ofInt (-1), f]
  | fuel + 1 =>
    match f with
    | number c => number c.neg
    | unbounded => unbounded
    | sum ts => productOf fuel [ofInt (-1), sum ts]
    | product fs =>
      let (c, fs) := match fs with
        | number c :: fs => (c, fs)
        | fs => (.one, fs)
      match fs with
      | unbounded :: _ => product fs
      | sum ts :: rest =>
        let d := c.neg
        if d = .one then ofFactors fs
        else if d = .ofInt (-1) then ofFactors (negate fuel (sum ts) :: rest)
        else ofFactors (productOf fuel [sum ts, number d] :: rest)
      | fs => if c.neg = .one then ofFactors fs else ofFactors (number c.neg :: fs)
    | f => product [ofInt (-1), f]

def productOf (fuel : Nat) (fs : List Form) : Form :=
  match fuel with
  | 0 => product fs
  | fuel + 1 =>
    match fs.filter fun f => !f.isOne with
    | [] => one
    | [f] => f
    | fs =>
      match exactTimesSum? fs with
      | some (c, r, ts) =>
        if r = .one then sumOf (ts.map (keepCoefficient fuel c))
        else
          let d := r.mul (.exact c)
          if d = .one then sum ts else product [number d, sum ts]
      | none => mergeFactors fuel (flatFactors fs fs.length.succ)

/-- A product of two factors of which one is an exact number and the other a sum. -/
def exactTimesSum? (fs : List Form) : Option (Rat × Number × List Form) :=
  let pick (a b : Form) : Option (Rat × Number × List Form) :=
    match a, b.coefficient with
    | number (.exact q), (r, sum ts) => if q = 0 then none else some (q, r, ts)
    | _, _ => none
  match fs with
  | [a, b] => if b.rational?.isSome then pick b a else pick a b
  | _ => none

def mergeFactors (fuel : Nat) (fs : List Form) : Form :=
  match fuel with
  | 0 => product fs
  | fuel + 1 =>
    let constant := (fs.filter isConstant).foldl mulConstant one
    if constant.isUndefined then constant
    else
      let others := fs.filter fun f => !f.isConstant
      let turn := others.foldl (fun acc f => acc + turnOf f) 0
      let roots := (others.filterMap numericRoot?).foldl (fun acc r => insertRoot r acc) []
      let radicands := roots.foldl (fun acc r => insertRadicand r acc) []
      let rootParts := radicands.flatMap fun r =>
        if r.2.den = 1 then [ofRat (Number.ratPow r.1 r.2.num)] else fractionFactors r.1 r.2
      let named := others.filter fun f => !f.same imaginary && (numericRoot? f).isNone
      let exponentials := gatherPowers ((named.filter isExponential).map baseExponent)
      let powers := gatherPowers ((named.filter fun f => !f.isExponential).map baseExponent)
      let parts := powers.flatMap fun p =>
        if p.2.same zero then []
        else if p.2.isOne then [p.1]
        else [powerOf fuel p.1 p.2]
      let exponentialParts := exponentials.flatMap fun p =>
        if p.2.same zero then [] else [powerOf fuel p.1 p.2]
      finishProduct (distribute fuel) constant
        (parts ++ exponentialParts ++ rootParts ++ turnFactors turn)

/-- A sum with an inexact coefficient to a number: the largest coefficient comes out in front. -/
def scaledPower (fuel : Nat) (ts : List Form) (e : Number) : Option Form :=
  match fuel with
  | 0 => none
  | fuel + 1 =>
    let cs := ts.map coefficient
    if cs.any fun c => c.1.isApprox then
      let big := cs.foldl (fun acc c => if acc.le c.1.abs then c.1.abs else acc) (.ofInt (-1))
      if big.isPositive && big.value != 1 then
        let inner := sumOf (cs.map fun (c : Number × Form) =>
          let d : Number := if c.1.isApprox == big.isApprox && c.1.abs.value == big.value then
              .ofInt (if c.1.isNegative then -1 else 1)
            else c.1.div big
          productOf fuel [number d, c.2])
        some (productOf fuel [powerOf fuel (number big) (number e), powerOf fuel inner (number e)])
      else none
    else none

def complexParts? (ts : List Form) : Option (Number × Number) :=
  match ts with
  | [number a, imaginary] => some (a, .one)
  | [number a, product [number b, imaginary]] => some (a, b)
  | _ => none

def numberPower (fuel : Nat) (b e : Number) : Form :=
  match fuel with
  | 0 => power (number b) (number e)
  | fuel + 1 =>
    match b, e with
    | .undefined, _ => number .undefined
    | _, .undefined => number .undefined
    | .infinite s, e => infinitePower s e
    | b, .infinite s =>
      if b = .one then number .undefined
      else if b.abs.value < 1 then (if s then unbounded else zero)
      else if b.abs.value = 1 then number .undefined
      else if s then zero
      else if b.isPositive then number (.infinite false) else unbounded
    | .exact q, .exact r =>
      if q = 0 then (if 0 < r then zero else unbounded)
      else if r.den = 1 then ofRat (Number.ratPow q r.num)
      else match fractionFactors q r with
        | [power b e] => power b e
        | fs => mergeFactors fuel fs
    | .exact q, .approx k r =>
      if q = 1 then one
      else if q = 0 then (if 0 < r then zero else unbounded)
      else inexactPower k (roundBits k q) r
    | .approx k q, .exact r =>
      if q < 0 ∧ r.num = 1 ∧ r.den % 2 = 1 ∧ r.den ≠ 1 then
        productOf fuel [power (ofInt (-1)) (ofRat r), inexactPower k (-q) (roundBits k r)]
      else if r.den = 1 then inexactPower k q r
      else inexactPower k q (roundBits k r)
    | .approx j q, .approx k r => inexactPower (max j k) q r

def powerOf (fuel : Nat) (b e : Form) : Form :=
  match fuel with
  | 0 => power b e
  | fuel + 1 =>
    if e.same zero then one
    else if e.isOne then b
    else match b, e with
      | number c, number d => numberPower fuel c d
      | number .undefined, _ => number .undefined
      | _, number .undefined => number .undefined
      | _, unbounded => number .undefined
      | number c, e => if c = .one then one else power (number c) e
      | unbounded, number d => if d.isPositive then unbounded else zero
      | imaginary, number (.exact r) =>
        if r.den = 1 then imaginaryPower r.num else power imaginary (ofRat r)
      | power b' e', number (.exact r) =>
        let combined := powerOf fuel b' (productOf fuel [e', ofRat r])
        if r.den = 1 then combined
        else match e' with
          | number d => if d.abs.value < 1 then combined else power (power b' e') (ofRat r)
          | _ => power (power b' e') (ofRat r)
      | power b' (number d), number (.approx k r) =>
        if d.abs.value < 1 then powerOf fuel b' (productOf fuel [number d, number (.approx k r)])
        else power (power b' (number d)) (number (.approx k r))
      | product fs, number (.exact r) =>
        if r.den = 1 then productOf fuel (fs.map fun f => powerOf fuel f (ofRat r))
        else rootOfProduct fuel fs (.exact r)
      | product fs, number (.approx k r) => rootOfProduct fuel fs (.approx k r)
      | sum ts, number d =>
        match complexParts? ts, d with
        | some (x, y), .exact r =>
          if r = -1 then
            let n := (x.mul x).add (y.mul y)
            let conjugate := sumOf [number x, productOf fuel [number y.neg, imaginary]]
            match n.inv with
            | m => if m = .one then conjugate else product [number m, conjugate]
          else power (sum ts) (number d)
        | _, _ =>
          if d.isFinite && d.abs.value != 1 && d.integer?.isNone then
            (scaledPower fuel ts d).getD (power (sum ts) (number d))
          else power (sum ts) (number d)
      | b, e => power b e

/-- A product to a power that is no integer: a positive number comes out in front. -/
def rootOfProduct (fuel : Nat) (fs : List Form) (e : Number) : Form :=
  match fuel with
  | 0 => power (product fs) (number e)
  | fuel + 1 =>
    match fs with
    | number c :: rest =>
      if c.isPositive && c.isFinite then
        productOf fuel [numberPower fuel c e, power (ofFactors rest) (number e)]
      else if c.isNegative && c.isFinite && c != .ofInt (-1) then
        productOf fuel [numberPower fuel c.neg e,
          power (productOf fuel (ofInt (-1) :: rest)) (number e)]
      else power (product fs) (number e)
    | fs => power (product fs) (number e)

end

/-- The depth to which sums, products and powers call each other. -/
def depth : Nat := 1000

def add (a b : Form) : Form := sumOf [a, b]

def neg (a : Form) : Form :=
  match a with
  | number c => number c.neg
  | a => negate depth a

def sub (a b : Form) : Form :=
  match a, b with
  | number c, number d => number (c.sub d)
  | a, b => sumOf [a, b.neg]

def mul (a b : Form) : Form :=
  match a, b with
  | number c, number d => number (c.mul d)
  | a, b => productOf depth [a, b]

def times (fs : List Form) : Form := productOf depth fs

def pow (a b : Form) : Form := powerOf depth a b

def div (a b : Form) : Form :=
  match a, b with
  | number c, number d =>
    if d.isZero then (if c.isZero || c == .undefined then number .undefined else unbounded)
    else number (c.div d)
  | a, b => if a.isOne then b.pow (ofInt (-1)) else productOf depth [a, b.pow (ofInt (-1))]

/-- What a factor is a power of, and its integer exponent. -/
def decompose (f : Form) : Form × Int :=
  match f.baseExponent with
  | (b, number (.exact r)) => (if r.den = 1 then b else b.pow (ofRat (mkRat 1 r.den)), r.num)
  | (_, number _) => (f, 1)
  | (b, e) =>
    match e.coefficient with
    | (.exact c, tail) =>
      if c = 1 then (f, 1)
      else (b.pow (if c.den = 1 then tail else times [ofRat (mkRat 1 c.den), tail]), c.num)
    | _ => (f, 1)

/-- A number with a real part only, or with both parts. -/
def complex? : Form → Option (Number × Number)
  | number c => some (c, .zero)
  | imaginary => some (.zero, .one)
  | product [number b, imaginary] => some (.zero, b)
  | sum ts => complexParts? ts
  | _ => none

end Form

end Orthant
