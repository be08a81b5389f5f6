import Orthant.Form.Polynomial
import Orthant.Sparse.Divisor

/-! # Coefficients of one kind

The coefficients of a polynomial are brought to one kind. Numbers are all inexact if one of them
is. Coefficients with names become polynomials in their own generators or, when one of them has a
denominator, fractions in lowest terms.
-/

namespace Orthant

namespace Form

/-! ## Numerator and denominator -/

def insertNumerator (n d : Form) : List (Form × List Form) → List (Form × List Form)
  | [] => [(d, [n])]
  | p :: ps => if p.1.same d then (p.1, p.2 ++ [n]) :: ps else p :: insertNumerator n d ps

def combineFractions (parts : List (Form × Form)) : Form × Form :=
  let groups := parts.foldl (fun acc p => insertNumerator p.1 p.2 acc) []
  match groups with
  | [(d, ns)] => (sumOf ns, d)
  | groups =>
    let ds := groups.map Prod.fst
    let ns := groups.map fun g => sumOf g.2
    (sumOf (ns.zipIdx.map fun p => times (ds.take p.2 ++ [p.1] ++ ds.drop (p.2 + 1))), times ds)

def isNegativeExponent (e : Form) : Bool := e.coefficient.1.isNegative

def isIntegerForm (e : Form) : Bool :=
  match e with
  | number c => c.integer?.isSome
  | _ => false

mutual

def ratioOf (f : Form) : Form × Form :=
  match f with
  | number (.exact q) => (ofInt q.num, ofInt q.den)
  | product fs =>
    let parts := ratiosOf fs
    (times (parts.map Prod.fst), times (parts.map Prod.snd))
  | sum ts => combineFractions (ratiosOf ts)
  | power b e =>
    let (n, d) := if isIntegerForm e then ratioOf b else (b, one)
    if isNegativeExponent e then (d.pow e.neg, n.pow e.neg) else (n.pow e, d.pow e)
  | f => (f, one)

def ratiosOf (fs : List Form) : List (Form × Form) :=
  match fs with
  | [] => []
  | f :: fs => ratioOf f :: ratiosOf fs

end

/-! ## Kinds of numbers -/

def bitsOf (fs : List Form) : Nat :=
  Number.maxBits (fs.flatMap fun f => match f.complex? with
    | some (a, b) => [a, b]
    | none => [])

def roundNumber (bits : Nat) (f : Form) : Form :=
  if bits = 0 then f
  else match f.complex? with
    | some (a, b) => if b.isZero then number (a.toApprox bits)
      else ofParts (a.toApprox bits) (b.toApprox bits)
    | none => f

/-! ## Fractions -/

/-- The best fraction for a number among those with denominators up to a bound: the last convergent
below it, or the mediant next to it. -/
def convergent (bound n d p₀ q₀ p₁ q₁ : Nat) : Nat → Nat × Nat × Nat × Nat
  | 0 => (p₀, q₀, p₁, q₁)
  | fuel + 1 =>
    if d = 0 then (p₀, q₀, p₁, q₁)
    else
      let a := n / d
      let q := q₀ + a * q₁
      if bound < q then (p₀, q₀, p₁, q₁)
      else convergent bound d (n - a * d) p₁ q₁ (p₀ + a * p₁) q fuel

/-- The fraction that an inexact number stands for: its denominator has no more digits than the
bits hold with some to spare. -/
def simpleFraction (bits : Nat) (q : Rat) : Rat :=
  let bound := twoPow (bits - 1) / 100
  if q.den ≤ bound then q
  else
    let n := q.num.natAbs
    let (p₀, q₀, p₁, q₁) := convergent bound n q.den 0 1 1 0 (n.log2 + q.den.log2 + 4)
    let k := (bound - q₀) / q₁
    let a := mkRat (p₀ + k * p₁ : Nat) (q₀ + k * q₁)
    let b := mkRat p₁ q₁
    let m := mkRat n q.den
    let distance (r : Rat) : Rat := if r < m then m - r else r - m
    let r := if a = 0 ∨ b = 0 then m else if distance b ≤ distance a then b else a
    if q < 0 then -r else r

def toGauss (f : Form) : Gauss :=
  let part (c : Number) : Rat := match c with
    | .approx k q => simpleFraction k q
    | c => c.value
  match f.complex? with
  | some (a, b) => ⟨part a, part b⟩
  | none => .zero

def toSparse (ms : Monomials) : GaussPolynomial :=
  ms.foldl (fun acc m =>
    let z := toGauss m.2
    if z.isZero then acc else GaussPolynomial.add acc [(m.1, z)]) []

def ofSparse (p : GaussPolynomial) : Monomials :=
  p.map fun t => (t.1, ofParts (.exact t.2.re) (.exact t.2.im))

def sharedExponents (ms : Monomials) : List Nat :=
  match ms with
  | [] => []
  | m :: ms => ms.foldl (fun acc n => List.zipWith min acc n.1) m.1

def lowerExponents (a : List Nat) (ms : Monomials) : Monomials :=
  ms.map fun m => (List.zipWith (· - ·) m.1 a, m.2)

def sortMonomials (ms : Monomials) : Monomials :=
  ms.mergeSort fun a b => compareFalling a.1 b.1 != .gt

/-- A fraction with inexact coefficients: a denominator or numerator of one term cancels powers of
generators only, others cancel their common divisor. -/
def inexactFraction (bits n : Nat) (p q : Monomials) : Monomials × Monomials :=
  let (p, q) := if p.length = 1 ∨ q.length = 1 then
      let shared := sharedExponents (p ++ q)
      (lowerExponents shared p, lowerExponents shared q)
    else
      let (a, b) := (toSparse p, toSparse q)
      let g := GaussPolynomial.monicGcd n a b
      match g with
      | [_] => (p, q)
      | g => (ofSparse (GaussPolynomial.quotient a g), ofSparse (GaussPolynomial.quotient b g))
  let rounded := fun m : List Nat × Form => (m.1, roundNumber bits m.2)
  let (p, q) := (p.map rounded, sortMonomials (q.map rounded))
  match q with
  | (_, number c) :: _ =>
    if c.isNegative then (p.map fun m => (m.1, m.2.neg), q.map fun m => (m.1, m.2.neg)) else (p, q)
  | _ => (p, q)

def fractionForm (gens : List Form) (bits : Nat) (p q : Monomials) : Form :=
  if p.all fun m => m.2.isZero then zero
  else
    let n := gens.length
    let (p, q) := if bits = 0 then
        let (a, b) := GaussPolynomial.lowestTerms n (toSparse p) (toSparse q)
        (ofSparse a, ofSparse b)
      else inexactFraction bits n p q
    (ofMonomials gens p).div (ofMonomials gens q)

/-! ## One kind for all -/

/-- Whether generators may depend on each other: one of them is a number, or two share a name. -/
def areEntangled : List Form → Bool
  | [] => false
  | g :: gs =>
    let isSpecial := match g with
      | number _ => true
      | unbounded => true
      | _ => false
    (g.names.isEmpty && !isSpecial) ||
      (gs.any fun h => h.names.any g.names.contains) || areEntangled gs

def isProperDenominator (ms : Monomials) : Bool :=
  match ms with
  | [m] => m.1.any (· ≠ 0)
  | _ => true

def unifyComposite (cs : List Form) : List Form :=
  let ratios := cs.map fun c =>
    let (n, d) := c.ratioOf
    (n.expand, d.expand)
  let gens := generatorsOf (ratios.map Prod.fst ++ ratios.map Prod.snd)
  if gens.isEmpty || areEntangled gens then cs
  else
    let parts := ratios.map fun r => (ownMonomials gens r.1, ownMonomials gens r.2)
    if parts.any fun p => isProperDenominator p.2 then
      let numbers := parts.flatMap fun p => (p.1 ++ p.2).map Prod.snd
      let bits := bitsOf numbers
      parts.map fun p => fractionForm gens bits p.1 p.2
    else
      let parts := parts.map fun p =>
        let d := (p.2.headD ([], one)).2
        p.1.map fun m => (m.1, m.2.div d)
      let bits := bitsOf (parts.flatMap fun p => p.map Prod.snd)
      parts.map fun p => ofMonomials gens (p.map fun m => (m.1, roundNumber bits m.2))

def unify (cs : List Form) : List Form :=
  let isNumeric (f : Form) : Bool := match f.complex? with
    | some (a, b) => a.isFinite && b.isFinite
    | none => false
  if cs.all isNumeric then cs.map (roundNumber (bitsOf cs)) else unifyComposite cs

/-- The terms of a form as a polynomial in generators, in falling order, the coefficients of one
kind and none zero. -/
def polynomialIn (gens : List Form) (f : Form) : Except Error Monomials := do
  let ms ← monomialsIn gens f.expand
  let cs := unify (ms.map Prod.snd)
  .ok (sortMonomials (((ms.map Prod.fst).zip cs).filter fun m => !m.2.isZero))

def polynomialInOwn (f : Form) : Except Error (List Form × Monomials) := do
  let gens := generatorsOf [f.expand]
  if gens.isEmpty then fail .generatorsNeeded else .ok (gens, ← polynomialIn gens f)

end Form

end Orthant
