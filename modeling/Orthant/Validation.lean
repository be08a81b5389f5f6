import Orthant.Journal
import Orthant.Polytope.Interior
import Orthant.Support.Basic

/-! # Validation of supports

The homotopy method needs a full-dimensional Newton polytope, at least one negative term, and every
negative exponent among the interior lattice points.
-/

namespace Orthant

namespace Support

variable {K : Type} [Exact K]

def newton (s : Support K) : Polytope := Polytope.ofPoints s.dimension s.exponents

/-- The first negative exponent that is not among the interior points. -/
def checkNegatives (p : Polytope) (interior : List (List Int)) :
    List (List Int) → Except Error Polytope
  | [] => .ok p
  | b :: rest =>
    if interior.contains b then checkNegatives p interior rest
    else .error (.negativeNotInterior b)

/-- Looks for the negative exponents inside a full-dimensional Newton polytope. -/
def validateIn (s : Support K) (p : Polytope)
    (facets : Polytope.FacetProgram := Polytope.facetSimplices) : Log × Except Error Polytope :=
  if s.negativeExponents.isEmpty then ([], .error .noNegativeTerm)
  else match p.facets facets with
    | .error e => ([], .error e)
    | .ok fs =>
      let interior := p.interiorPoints fs
      ([⟨.debug, "check", toString interior.length ++ " interior lattice points in " ++ p.text⟩],
        checkNegatives p interior s.negativeExponents)

/-- The Newton polytope of a support that the method takes, with what is reported. -/
def validate (s : Support K) (facets : Polytope.FacetProgram := Polytope.facetSimplices) :
    Log × Except Error Polytope :=
  let p := s.newton
  if !p.isFull then ([], .error (.supportNotFull p.dim p.ambient))
  else match s.checked with
    | .error e => ([], .error e)
    | .ok s => s.validateIn p facets

end Support

end Orthant
