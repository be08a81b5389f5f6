/-! # Words with a meaning

Names that stand for functions, sets and other things of algebra. They are no unknowns: alone they
cannot be computed with, and before a parenthesis some of them are functions of known meaning.
-/

namespace Orthant.Vocabulary

def unary : List String :=
  ["sin", "cos", "tan", "sec", "csc", "cot", "sinc", "asin", "acos", "atan", "asec", "acsc",
   "acot", "sinh", "cosh", "tanh", "coth", "sech", "csch", "asinh", "acosh", "atanh", "acoth",
   "asech", "acsch", "exp", "sqrt", "cbrt", "abs", "Abs", "sign", "re", "im", "arg", "conjugate",
   "floor", "ceiling", "factorial", "gamma", "erf", "erfc"]

def functions : List String :=
  ["log", "ln", "atan2", "root", "pow", "max", "min", "Max", "Min", "Mod", "Pow", "Add", "Mul",
   "beta", "zeta", "binomial", "rf", "ff", "gcd", "lcm", "rem", "quo", "div", "Ei", "E1", "li",
   "Li", "Si", "Ci", "Shi", "Chi", "LambertW", "polylog", "lerchphi", "digamma", "trigamma",
   "loggamma", "polygamma", "uppergamma", "lowergamma", "erfi", "erf2", "erfinv", "fresnels",
   "fresnelc", "besselj", "bessely", "besseli", "besselk", "hankel1", "hankel2", "jn", "yn",
   "airyai", "airybi", "hyper", "meijerg", "legendre", "hermite", "laguerre", "jacobi",
   "chebyshevt", "chebyshevu", "gegenbauer", "Ynm", "Znm", "Heaviside", "DiracDelta", "LeviCivita",
   "Eijk", "KroneckerDelta", "Piecewise", "factorial2", "subfactorial", "fibonacci", "lucas",
   "tribonacci", "motzkin", "harmonic", "bernoulli", "bell", "euler", "catalan", "genocchi",
   "andre", "partition", "stieltjes", "frac", "Id", "Rem", "transpose", "adjoint", "expint",
   "totient", "mobius", "carmichael", "primepi", "primenu", "primeomega", "sum", "divmod", "round",
   "Sum", "Product", "Integral", "Derivative", "Subs", "Limit", "Order", "O"]

def things : List String :=
  ["N", "S", "Q", "true", "false", "Symbol", "Dummy", "Wild", "Function", "Lambda", "Integer",
   "Rational", "Float", "Number", "Expr", "Basic", "Atom", "Tuple", "Dict", "Rel", "Eq", "Ne",
   "Lt", "Le", "Gt", "Ge", "And", "Or", "Not", "Xor", "Nand", "Nor", "Implies", "Equivalent",
   "ITE", "Poly", "PurePoly", "LC", "LM", "LT", "ZZ", "QQ", "RR", "CC", "GF", "FF", "EX", "EXRAW",
   "ZZ_I", "QQ_I", "Monomial", "Options", "Domain", "Set", "Interval", "Union", "Complement",
   "Range", "Reals", "Rationals", "Integers", "Naturals", "Naturals0", "Complexes", "EmptySet",
   "UniversalSet", "FiniteSet", "ProductSet", "PowerSet", "ImageSet", "Contains", "Ordinal",
   "Matrix", "Identity", "Inverse", "Trace", "Transpose", "Determinant", "Permanent", "MatAdd",
   "MatMul", "MatPow", "MatrixSymbol", "SparseMatrix", "BlockMatrix", "Array", "NDimArray", "Idx",
   "Indexed", "IndexedBase", "Quaternion", "Point", "Point2D", "Point3D", "Line", "Line2D",
   "Line3D", "Ray", "Segment", "Plane", "Ellipse", "Circle", "Polygon", "Triangle", "Curve",
   "Parabola", "Sieve", "SeqPer", "SeqAdd", "SeqMul", "RootOf", "CRootOf", "RootSum",
   "AccumBounds", "FU", "EPath", "TableForm", "AlgebraicNumber"]

def activities : List String :=
  ["symbols", "var", "expand", "factor", "simplify", "collect", "cancel", "apart", "together",
   "diff", "integrate", "limit", "series", "solve", "dsolve", "nsolve", "rsolve", "pdsolve",
   "linsolve", "nonlinsolve", "solveset", "diophantine", "substitution", "evaluate", "evalf",
   "nfloat", "degree", "content", "primitive", "compose", "decompose", "resultant", "discriminant",
   "subresultants", "sturm", "groebner", "reduced", "roots", "nroots", "intervals", "interpolate",
   "horner", "poly", "monic", "trunc", "invert", "sqf", "gff", "cofactors", "viete", "symmetrize",
   "minpoly", "isolate", "pdiv", "prem", "pquo", "pexquo", "exquo", "gcdex", "ring", "xring",
   "vring", "sring", "field", "xfield", "vfield", "sfield", "lex", "grlex", "grevlex", "ilex",
   "igrlex", "igrevlex", "prime", "primerange", "nextprime", "prevprime", "randprime", "isprime",
   "sieve", "primorial", "composite", "compositepi", "divisors", "factorint", "factorrat",
   "multiplicity", "primefactors", "abundance", "npartitions", "prod", "product", "summation",
   "fft", "ifft", "ntt", "intt", "fwht", "ifwht", "convolution", "fps", "residue", "gruntz",
   "sequence", "hypersimp", "logcombine", "separatevars", "posify", "nsimplify", "fu",
   "sqrtdenest", "cse", "epath", "hyperexpand", "rcollect", "radsimp", "fraction", "numer",
   "denom", "trigsimp", "powsimp", "powdenest", "combsimp", "gammasimp", "ratsimp", "signsimp",
   "imageset", "ones", "zeros", "eye", "diag", "det", "per", "trace", "hessian", "wronskian",
   "casoratian", "banded", "symarray", "blockcut", "rad", "deg", "idiff", "centroid",
   "intersection", "flatten", "group", "take", "subsets", "variations", "sift", "reshape",
   "rotations", "cartes", "capture", "postfixes", "public", "threaded", "timed", "lambdify",
   "shape", "permutedims", "tensorproduct", "pretty", "pprint", "latex", "mathml", "srepr", "sstr",
   "preview", "plot", "textplot", "test", "doctest", "igcd", "ilcm", "trailing", "comp", "arity",
   "vectorize", "use", "ordered", "refine", "ask", "assuming", "satisfiable", "to_cnf", "to_dnf",
   "to_nnf", "periodicity", "singularities", "maximum", "minimum", "polarify", "unpolarify",
   "unflatten", "prefixes", "all", "any", "ascii", "bin", "callable", "chr", "compile", "delattr",
   "dir", "eval", "exec", "format", "getattr", "globals", "hasattr", "hash", "hex", "id", "input",
   "isinstance", "issubclass", "iter", "len", "locals", "next", "oct", "open", "ord", "print",
   "repr", "setattr", "sorted", "vars"]

def hasMeaning (s : String) : Bool :=
  unary.contains s || functions.contains s || things.contains s || activities.contains s

/-- The place of a function among those that are written first. -/
def rank (f : String) : Nat :=
  let first := ["exp", "log", "sin", "cos", "tan", "cot", "sinh", "cosh", "tanh", "coth",
    "conjugate", "re", "im", "arg"]
  match first.findIdx? (· = f) with
  | some i => i + 1
  | none => if hasMeaning f then 100 else 0

/-- The value of a function at zero, where it is a whole number. -/
def atZero? (f : String) : Option Nat :=
  let zero := ["sin", "tan", "sinh", "tanh", "asin", "atan", "asinh", "atanh", "erf", "sign", "re",
    "im"]
  let one := ["cos", "sec", "cosh", "sech", "exp", "factorial", "sinc"]
  if zero.contains f then some 0 else if one.contains f then some 1 else none

def vanishesAtOne (f : String) : Bool := ["log", "ln", "acos", "asec", "acosh", "asech"].contains f

end Orthant.Vocabulary
