import Orthant.Box.Ball
import Orthant.Box.Rectangle
import Orthant.Check
import Orthant.Decision.Certificate
import Orthant.Decision.Verdict
import Orthant.EquationSystem.Basic
import Orthant.EquationSystem.Fresh
import Orthant.EquationSystem.General
import Orthant.EquationSystem.Homotopy
import Orthant.EquationSystem.Substitution
import Orthant.Error
import Orthant.Expr.Basic
import Orthant.Expr.Plain
import Orthant.Expr.Reader
import Orthant.Expr.Token
import Orthant.Family
import Orthant.Form.Arithmetic
import Orthant.Form.Basic
import Orthant.Form.Coefficient
import Orthant.Form.Expand
import Orthant.Form.Function
import Orthant.Form.Logic
import Orthant.Form.Numeric
import Orthant.Form.Polynomial
import Orthant.Form.Printer
import Orthant.Form.Radical
import Orthant.Form.Substitution
import Orthant.Journal
import Orthant.Lattice.Cast
import Orthant.Lattice.Grid
import Orthant.Lattice.Word
import Orthant.Linear.Elimination
import Orthant.Linear.Inverse
import Orthant.Linear.Rounded
import Orthant.Linear.Simplex
import Orthant.Linear.Spectrum
import Orthant.Linear.Vector
import Orthant.Main
import Orthant.Number.Basic
import Orthant.Number.Double
import Orthant.Number.Gauss
import Orthant.Number.Power
import Orthant.Number.Rounding
import Orthant.Number.Shortest
import Orthant.Options
import Orthant.Polytope.Balance
import Orthant.Polytope.Basic
import Orthant.Polytope.Facets
import Orthant.Polytope.Interior
import Orthant.Proofs.Box.Ball
import Orthant.Proofs.Box.Grammar
import Orthant.Proofs.Check
import Orthant.Proofs.Copositivity.Exponential
import Orthant.Proofs.Copositivity.Reduction
import Orthant.Proofs.Decision.Order
import Orthant.Proofs.Decision.Rank
import Orthant.Proofs.Decision.Refinement
import Orthant.Proofs.Decision.Selection
import Orthant.Proofs.Decision.Soundness
import Orthant.Proofs.EquationSystem.Commutation
import Orthant.Proofs.EquationSystem.Evaluation
import Orthant.Proofs.EquationSystem.Export
import Orthant.Proofs.EquationSystem.Falling
import Orthant.Proofs.EquationSystem.Fresh
import Orthant.Proofs.EquationSystem.Gradient
import Orthant.Proofs.EquationSystem.Homotopy
import Orthant.Proofs.EquationSystem.Listing
import Orthant.Proofs.EquationSystem.Names
import Orthant.Proofs.EquationSystem.Specialization
import Orthant.Proofs.EquationSystem.Total
import Orthant.Proofs.Except
import Orthant.Proofs.Expr.Plain
import Orthant.Proofs.Family.Corners
import Orthant.Proofs.Family.Rows
import Orthant.Proofs.Family.Uniform
import Orthant.Proofs.Family.Weights
import Orthant.Proofs.Lattice.Cone
import Orthant.Proofs.Lattice.Grid
import Orthant.Proofs.Lattice.Word
import Orthant.Proofs.Lifting.Crossing
import Orthant.Proofs.Lifting.Envelope
import Orthant.Proofs.Lifting.Flip
import Orthant.Proofs.Lifting.Fold
import Orthant.Proofs.Lifting.Generic
import Orthant.Proofs.Lifting.Path
import Orthant.Proofs.Lifting.Simplex
import Orthant.Proofs.Linear.Inverse
import Orthant.Proofs.Linear.Kernel
import Orthant.Proofs.Linear.Matrix
import Orthant.Proofs.Linear.Spectrum
import Orthant.Proofs.Linear.Vector
import Orthant.Proofs.Number.Exact
import Orthant.Proofs.Number.Extended
import Orthant.Proofs.Number.Range
import Orthant.Proofs.Number.Real
import Orthant.Proofs.Number.Rounding
import Orthant.Proofs.Options
import Orthant.Proofs.Polytope.Balance
import Orthant.Proofs.Polytope.Barycentric
import Orthant.Proofs.Polytope.Containment
import Orthant.Proofs.Polytope.Dimension
import Orthant.Proofs.Polytope.Face
import Orthant.Proofs.Polytope.Facets
import Orthant.Proofs.Polytope.Fullness
import Orthant.Proofs.Polytope.Hull
import Orthant.Proofs.Polytope.Interior
import Orthant.Proofs.Polytope.Primitive
import Orthant.Proofs.Polytope.Proposal
import Orthant.Proofs.Polytope.Representation
import Orthant.Proofs.Polytope.Sublist
import Orthant.Proofs.Polytope.Sweep
import Orthant.Proofs.Polytope.Weights
import Orthant.Proofs.Separation.Bounds
import Orthant.Proofs.Separation.Heredity
import Orthant.Proofs.Separation.Scan
import Orthant.Proofs.Separation.Simplex
import Orthant.Proofs.Separation.Single
import Orthant.Proofs.Separation.Tolerance
import Orthant.Proofs.Solver.Box
import Orthant.Proofs.Solver.Certification
import Orthant.Proofs.Solver.Failure
import Orthant.Proofs.Solver.Pool
import Orthant.Proofs.Solver.Request
import Orthant.Proofs.Solver.Session
import Orthant.Proofs.Solver.Work
import Orthant.Proofs.Sparse.Arithmetic
import Orthant.Proofs.Support
import Orthant.Proofs.Support.Extraction
import Orthant.Proofs.Support.Rows
import Orthant.Proofs.Text.Literal
import Orthant.Proofs.Text.Reading
import Orthant.Proofs.Triangulation.Acceptance
import Orthant.Proofs.Triangulation.Barycentric
import Orthant.Proofs.Triangulation.Canonical
import Orthant.Proofs.Triangulation.Cells
import Orthant.Proofs.Triangulation.Chamber
import Orthant.Proofs.Triangulation.Covering
import Orthant.Proofs.Triangulation.Crossing
import Orthant.Proofs.Triangulation.Determinant
import Orthant.Proofs.Triangulation.Ending
import Orthant.Proofs.Triangulation.Enumeration
import Orthant.Proofs.Triangulation.Flip
import Orthant.Proofs.Triangulation.Heights
import Orthant.Proofs.Triangulation.Hull
import Orthant.Proofs.Triangulation.Lineality
import Orthant.Proofs.Triangulation.LowerHull
import Orthant.Proofs.Triangulation.Regular
import Orthant.Proofs.Triangulation.Search
import Orthant.Proofs.Triangulation.Single
import Orthant.Proofs.Triangulation.Truncation
import Orthant.Proofs.Triangulation.Walls
import Orthant.Proofs.Validation
import Orthant.Separation.Coordinates
import Orthant.Separation.Nonseparable
import Orthant.Separation.Simplex
import Orthant.Solver.Basic
import Orthant.Solver.Client
import Orthant.Solver.Engine
import Orthant.Sparse.Basic
import Orthant.Sparse.Divisor
import Orthant.Support.Basic
import Orthant.Support.Polynomial
import Orthant.Sweep
import Orthant.Text.Blank
import Orthant.Text.Digest
import Orthant.Text.Digit
import Orthant.Text.Numeral
import Orthant.Text.Printable
import Orthant.Text.Quoted
import Orthant.Text.Vocabulary
import Orthant.Text.Word
import Orthant.Triangulation.Configuration
import Orthant.Triangulation.Enumeration
import Orthant.Triangulation.Places
import Orthant.Triangulation.Seed
import Orthant.Triangulation.Twister
import Orthant.Triangulation.Walls
import Orthant.Validation
import Orthant.Value
