import Orthant.Form.Arithmetic
import Orthant.Text.Vocabulary

/-! # Writing forms

A sum is written with its terms in falling order of their exponents, a product with numerator, slash
and denominator. Inexact numbers have the decimal digits that their bits hold, without zeros at the
end.
-/

namespace Orthant

/-! ## Inexact numbers -/

def digitsOfBits (bits : Nat) : Nat :=
  max 1 ((roundDiv ((bits * tenPow 16 : Nat) : Int) 33219280948873626).toNat - 1)

/-- A positive number cut to `count` digits, with the exponent of the first one. -/
def cutDigits (q : Rat) (count : Nat) : Nat × Int :=
  let lead := floorLogTen q.num.natAbs q.den
  let m := match lead - (count : Int) + 1 with
    | .ofNat k => q.num.natAbs / (q.den * tenPow k)
    | .negSucc k => q.num.natAbs * tenPow (k + 1) / q.den
  (m, lead)

/-- A positive number with `count` digits, rounded from three more that are cut. -/
def someDigits (q : Rat) (count : Nat) : Nat × Int :=
  let (m, lead) := cutDigits q (count + 3)
  let r := (m + 500) / 1000
  if tenPow count ≤ r then (r / 10, lead + 1) else (r, lead)

/-- A magnitude: positional while its exponent is neither small nor beyond the digits. -/
def digitText (q : Rat) (count : Nat) : String :=
  if q.num = 0 then "0"
  else
    let (m, lead) := someDigits q count
    let d : Decimal := ⟨stripZeros m (count + 1), lead⟩
    if min (-((count / 3 : Nat) : Int)) (-5) < lead ∧ lead < count then d.positional
    else
      let s := toString d.digits
      (if s.length = 1 then s ++ ".0" else d.mantissa) ++ "e" ++ (if lead < 0 then "-" else "+") ++
        toString lead.natAbs

def Number.formText : Number → String
  | .exact q => ratText q
  | .approx k q =>
    (if q < 0 then "-" else "") ++ digitText (if q < 0 then -q else q) (digitsOfBits k)
  | c => c.text

namespace Form

/-! ## Binding strength -/

/-- How tightly a form binds: sums 40, products 50, powers 60, functions 70, all else 1000; what
starts with a minus binds like a sum. -/
def strength : Form → Nat
  | number (.exact q) => if q < 0 then 40 else if q.den = 1 then 1000 else 50
  | number c => if c.isNegative then 40 else 1000
  | sum _ => 40
  | product (number c :: _) => if c.isNegative then 40 else 50
  | product _ => 50
  | power _ _ => 60
  | call _ _ => 70
  | _ => 1000

/-! ## The order in which parts are written -/

/-- A term's complex coefficient, and its other factors with their exponents. -/
structure Monomial where
  term : Form
  re : Rat
  im : Rat
  powers : List (Form × Int)

def monomialOf (t : Form) : Monomial :=
  let (c, f) := t.coefficient
  let fs := f.factors.filter fun f => !f.isOne
  let units := (fs.filter fun f => f.same imaginary).length
  ⟨t, if units = 0 then c.value else 0, if units = 0 then 0 else c.value,
    (fs.filter fun f => !f.same imaginary).map decompose⟩

def Monomial.exponent (m : Monomial) (b : Form) : Int :=
  ((m.powers.find? fun p => p.1.same b).map Prod.snd).getD 0

/-- Larger exponents of earlier bases come first, then real coefficients, then smaller ones. -/
def Monomial.before (bases : List Form) (m n : Monomial) : Bool :=
  match bases.find? fun b => m.exponent b != n.exponent b with
  | some b => decide (n.exponent b < m.exponent b)
  | none =>
    if (m.im == 0) != (n.im == 0) then m.im == 0
    else if m.im != n.im then decide (m.im < n.im)
    else decide (m.re ≤ n.re)

def isPositiveFirst : List Form → Bool
  | [number c, product [number d, _]] => c.isPositive && d.isNegative
  | _ => false

def insertBase (before : Form → Form → Bool) (b : Form) : List Form → List Form
  | [] => [b]
  | c :: cs => if c.same b then c :: cs else if before b c then b :: c :: cs
    else c :: insertBase before b cs

/-- The rank of a form's kind among the parts of a product. -/
def writtenKind : Form → Nat × Nat × String
  | number _ => (1, 0, "Number")
  | imaginary => (2, 0, "ImaginaryUnit")
  | unbounded => (2, 0, "ComplexInfinity")
  | truth _ => (2, 0, "Boolean")
  | statement _ => (2, 0, "Boolean")
  | name _ => (2, 0, "Symbol")
  | product _ => (3, 0, "Mul")
  | sum _ => (3, 1, "Add")
  | power _ _ => (3, 2, "Pow")
  | call f _ => (4, Vocabulary.rank f, f)

def compareKind (a b : Nat × Nat × String) : Ordering :=
  ((compare a.1 b.1).then (compare a.2.1 b.2.1)).then (compareText a.2.2 b.2.2)

def compareRat (p q : Rat) : Ordering := if p < q then .lt else if q < p then .gt else .eq

/-- What a form is a multiple of a power of: the base, the exponent and the coefficient. -/
def writtenParts (f : Form) : Form × Form × Number :=
  match f with
  | number c => (number c, one, c)
  | f =>
    let (c, g) := f.coefficient
    match g with
    | power b e => (b, e, c)
    | g => (g, one, c)

mutual

def writtenTerms (fuel : Nat) (ts : List Form) : List Form :=
  match fuel with
  | 0 => ts
  | fuel + 1 =>
    if isPositiveFirst ts then ts
    else
      let ms := ts.map monomialOf
      let bases := (ms.flatMap fun m => m.powers.map Prod.fst).foldl
        (fun acc b => insertBase (fun x y => writtenOrder fuel x y == .lt) b acc) []
      (ms.mergeSort (Monomial.before bases)).map Monomial.term

def writtenFactors (fuel : Nat) (fs : List Form) : List Form :=
  match fuel with
  | 0 => fs
  | fuel + 1 => fs.mergeSort fun a b => writtenOrder fuel a b != .gt

/-- The order of factors: by the kind of the base, its parts, the exponent and the coefficient. -/
def writtenOrder (fuel : Nat) (f g : Form) : Ordering :=
  match fuel with
  | 0 => .eq
  | fuel + 1 =>
    let (a, d, x) := f.writtenParts
    let (b, e, y) := g.writtenParts
    let parts := match a, b with
      | name s, name t => compareText s t
      | sum ss, sum ts => compareParts fuel (writtenTerms fuel ss) (writtenTerms fuel ts)
      | product ss, product ts => compareParts fuel (writtenFactors fuel ss) (writtenFactors fuel ts)
      | call _ ss, call _ ts => compareParts fuel ss ts
      | number c, number d => compareText c.formText d.formText
      | _, _ => .eq
    let exponents := match d, e with
      | number p, number q => compareRat p.value q.value
      | d, e => writtenOrder fuel d e
    let inner := match f, g with
      | number _, number _ => .eq
      | _, _ => parts.then exponents
    ((compareKind a.writtenKind b.writtenKind).then inner).then (compareRat x.value y.value)

/-- Fewer parts come first, then the first parts that differ decide. -/
def compareParts (fuel : Nat) (ss ts : List Form) : Ordering :=
  match fuel with
  | 0 => .eq
  | fuel + 1 => (compare ss.length ts.length).then
      (((ss.zip ts).map fun p => writtenOrder fuel p.1 p.2).foldl Ordering.then .eq)

end

/-! ## Text -/

def isBelow : Form → Bool
  | power _ e =>
    match e with
    | number c => c.isNegative
    | e => e.coefficient.1.isNegative
  | _ => false

def upperPart (f : Form) : List Form :=
  match f with
  | number (.exact q) => if q.num = 1 then [] else [ofInt q.num]
  | f => if f.isBelow then [] else [f]

/-- A factor below the slash, and whether it needs parentheses in any case. -/
def lowerPart (f : Form) : List (Form × Bool) :=
  match f with
  | number (.exact q) => if q.den = 1 then [] else [(ofInt q.den, false)]
  | power b e =>
    match e with
    | number c =>
      if c.isNegative then
        if c = .ofInt (-1) then [(b, b.isProduct || b.isPower)]
        else [(power b (number c.neg), false)]
      else []
    | e =>
      let (c, t) := e.coefficient
      if c.isNegative then [(power b (scaled c.neg t), false)] else []
  | _ => []

def inParentheses (s : String) : String := "(" ++ s ++ ")"

def joinTerms : List String → String
  | [] => "0"
  | s :: ss => ss.foldl (fun acc t =>
      if t.startsWith "-" then acc ++ " - " ++ String.ofList (t.toList.drop 1)
      else acc ++ " + " ++ t) s

mutual

def textAt (fuel : Nat) (f : Form) : String :=
  match fuel with
  | 0 => ""
  | fuel + 1 =>
    match f with
    | number c => c.formText
    | unbounded => "zoo"
    | imaginary => "I"
    | name s => s
    | truth b => if b then "True" else "False"
    | statement ps => inParentheses (", ".intercalate (ps.map (textAt fuel)))
    | call f as => f ++ inParentheses (", ".intercalate (as.map (textAt fuel)))
    | power b e =>
      match e with
      | number (.exact r) =>
        if r = mkRat 1 2 then "sqrt" ++ inParentheses (textAt fuel b)
        else if r = mkRat (-1) 2 then "1/sqrt" ++ inParentheses (textAt fuel b)
        else if r = -1 then "1/" ++ guarded fuel 60 b
        else guarded fuel 60 b ++ "**" ++ guarded fuel 60 e
      | e => guarded fuel 60 b ++ "**" ++ guarded fuel 60 e
    | sum ts => joinTerms ((writtenTerms fuel ts).map (textAt fuel))
    | product fs =>
      let (sign, fs) := match fs with
        | number c :: rest =>
          if c.isNegative then ("-", if c = Number.ofInt (-1) then rest else number c.neg :: rest)
          else ("", fs)
        | fs => ("", fs)
      let fs := writtenFactors fuel fs
      let top := fs.flatMap upperPart
      let bottom := (fs.flatMap lowerPart).map fun p =>
        if p.2 then inParentheses (textAt fuel p.1) else guarded fuel 50 p.1
      let top := if top.isEmpty then "1" else "*".intercalate (top.map (guarded fuel 50))
      sign ++ match bottom with
        | [] => top
        | [s] => top ++ "/" ++ s
        | ss => top ++ "/" ++ inParentheses ("*".intercalate ss)

/-- A part in parentheses unless it binds more tightly than its place. -/
def guarded (fuel : Nat) (place : Nat) (f : Form) : String :=
  match fuel with
  | 0 => ""
  | fuel + 1 => if f.strength ≤ place then inParentheses (textAt fuel f) else textAt fuel f

end

def text (f : Form) : String := textAt depth f

end Form

end Orthant
