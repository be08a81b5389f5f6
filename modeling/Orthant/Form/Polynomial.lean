import Orthant.Form.Expand
import Orthant.Form.Printer
import Orthant.Error
import Orthant.Text.Digit

/-! # Forms as polynomials

An expanded form is a polynomial in its generators when no other factor mentions one of them. What
is no power of a generator goes into the coefficients.
-/

namespace Orthant

namespace Form

def isPlainNumber : Form → Bool
  | number c => c.isFinite
  | _ => false

def generatorPower (f : Form) : Form × Nat :=
  let (b, e) := f.decompose
  if e < 0 then (b.pow (ofInt (-1)), e.natAbs) else (b, e.natAbs)

def place? (gens : List Form) (f : Form) : Option Nat := gens.findIdx? fun g => g.same f

abbrev Monomials := List (List Nat × Form)

def insertMonomial (m : List Nat × Form) : Monomials → Monomials
  | [] => [m]
  | n :: ns => if n.1 = m.1 then (n.1, sumOf [n.2, m.2]) :: ns else n :: insertMonomial m ns

def splitTerm (gens : List Form) (t : Form) : Except Error (List Nat × Form) := do
  let names := namesOf gens
  let parts ← t.factors.mapM fun f : Form => do
    if f.isPlainNumber then .ok (none, [f])
    else
      let (b, e) := f.generatorPower
      match place? gens b with
      | some i => .ok (some (i, e), [])
      | none => if f.names.any names.contains then fail .notPolynomial else .ok (none, [f])
  let powers := parts.filterMap Prod.fst
  .ok ((List.range gens.length).map fun i => (powers.lookup i).getD 0,
    times (parts.flatMap Prod.snd))

def monomialsIn (gens : List Form) (f : Form) : Except Error Monomials := do
  if f.hasTruth then fail .notPolynomial
  else
    let ms ← f.terms.mapM (splitTerm gens)
    .ok (ms.foldl (fun acc m => insertMonomial m acc) [])

/-! ## Generators that a form brings itself -/

/-- The rank of a generator's name: `x` to `z`, then `p` to `w`, then `a` to `o`, then all
others. -/
def generatorRank (name : String) : Nat :=
  match name.toList with
  | [c] =>
    if 'x' ≤ c ∧ c ≤ 'z' then 100 + c.toNat
    else if 'p' ≤ c ∧ c ≤ 'w' then 200 + c.toNat
    else if 'a' ≤ c ∧ c ≤ 'o' then 300 + c.toNat
    else 1000
  | _ => 1000

/-- The name of a generator without the digits at its end, and the number they are. -/
def splitIndex (s : String) : String × Nat :=
  let back := s.toList.reverse
  let digits := (back.takeWhile isDecimalDigit).reverse
  (String.ofList (back.dropWhile isDecimalDigit).reverse,
    digits.foldl (fun acc c => 10 * acc + (digitValue? c).getD 0) 0)

/-- Generators go by the rank of their names, their names and their numbers. -/
def generatorBefore (f g : Form) : Bool :=
  let (s, i) := splitIndex f.text
  let (t, j) := splitIndex g.text
  (((compare (generatorRank s) (generatorRank t)).then (compareText s t)).then (compare i j)) != .gt

/-- Whether a factor is a coefficient for generators that a form brings itself. -/
def isCoefficient (f : Form) : Bool := f.isPlainNumber || f.same imaginary

def insertGenerator (f : Form) (gens : List Form) : List Form :=
  if gens.any f.same then gens else gens ++ [f]

def generatorsOf (fs : List Form) : List Form :=
  let all := fs.flatMap fun f => f.terms.flatMap fun t =>
    (t.factors.filter fun g => !g.isCoefficient).map fun g => g.generatorPower.1
  (all.foldl (fun acc g => insertGenerator g acc) []).mergeSort generatorBefore

/-- The monomials of an expanded form in generators among which are all its own. -/
def ownMonomials (gens : List Form) (f : Form) : Monomials :=
  let split (t : Form) : List Nat × Form :=
    let (cs, gs) := t.factors.partition isCoefficient
    let powers := gs.map generatorPower
    (gens.map fun g => powers.foldl (fun n p => if p.1.same g then n + p.2 else n) 0, times cs)
  (f.terms.map split).foldl (fun acc m => insertMonomial m acc) []

def ofMonomials (gens : List Form) (ms : Monomials) : Form :=
  sumOf (ms.map fun m => times (m.2 :: ((gens.zip m.1).filter fun p => p.2 ≠ 0).map fun p =>
    p.1.pow (ofInt p.2)))

end Form

end Orthant
