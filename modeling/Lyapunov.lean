import Lyapunov.Dense.Kronecker
import Lyapunov.Dense.Solve
import Lyapunov.Argument
import Lyapunov.Options.Schema
import Lyapunov.Expr.Blocks
import Lyapunov.Expr.Traversal
import Lyapunov.Func.Reverse
import Lyapunov.Options.Document
import Lyapunov.Equation.Document
import Lyapunov.Solver
import Lyapunov.Proofs.Graph.Order
import Lyapunov.Proofs.Except
import Lyapunov.Proofs.Func.Checks
import Lyapunov.Proofs.Tape.Compile
import Lyapunov.Proofs.Func.Evaluation
import Lyapunov.Proofs.Exact.Dense
import Lyapunov.Proofs.Exact.Product
import Lyapunov.Proofs.Exact.Solve
import Lyapunov.Proofs.Exact.Dual
import Lyapunov.Proofs.Tape.Shapes
import Lyapunov.Proofs.Derivative.Rate
import Lyapunov.Proofs.Derivative.Nodes
import Lyapunov.Proofs.Derivative.Tangent
import Lyapunov.Proofs.Derivative.Extension
import Lyapunov.Proofs.Derivative.Forward
import Lyapunov.Proofs.Exact.Inner
import Lyapunov.Proofs.Derivative.Adjoint
import Lyapunov.Proofs.Derivative.Pairing
import Lyapunov.Proofs.Derivative.Reverse
import Lyapunov.Proofs.Derivative.Nesting
import Lyapunov.Proofs.Exact.Matrix
import Lyapunov.Proofs.Exact.Blocks
import Lyapunov.Proofs.Equation.Series
import Lyapunov.Proofs.Equation.System
import Lyapunov.Proofs.Equation.LowRank
import Lyapunov.Proofs.Expr.Reading
import Lyapunov.Proofs.Expr.Blocks
import Lyapunov.Proofs.Equation.Inputs
import Lyapunov.Proofs.Method.Smith
import Lyapunov.Proofs.Method.Kronecker
import Lyapunov.Proofs.Expr.Shape
import Lyapunov.Proofs.Func.Symbols
import Lyapunov.Proofs.Derivative.Agreement
import Lyapunov.Proofs.Equation.Data
import Lyapunov.Proofs.Solver.Function
import Lyapunov.Proofs.Solver.Plugins
import Lyapunov.Proofs.Solver.Equations
import Lyapunov.Proofs.Solver.Smith
import Lyapunov.Proofs.Solver.Kronecker
import Lyapunov.Proofs.Solver.Made
import Lyapunov.Proofs.Solver.Totality
import Lyapunov.Proofs.Derivative.Contraction
import Lyapunov.Proofs.Solver.Derivatives
import Lyapunov.Proofs.Solver.Factors
import Lyapunov.Proofs.Equation.Gradient
import Lyapunov.Proofs.Solver.Gradient
import Lyapunov.Proofs.Func.Soundness
import Lyapunov.Proofs.Derivative.Existence
import Lyapunov.Proofs.Graph.Renaming
import Lyapunov.Proofs.Expr.Renaming
import Lyapunov.Proofs.Func.Renaming
import Lyapunov.Proofs.Derivative.Renaming
import Lyapunov.Proofs.Derivative.Map
import Lyapunov.Proofs.Derivative.Second
import Lyapunov.Proofs.Derivative.Mixed
import Lyapunov.Proofs.Derivative.Symmetry
import Lyapunov.Proofs.Derivative.Systems
import Lyapunov.Proofs.Derivative.Reproduction
import Lyapunov.Proofs.Func.Refusal
import Lyapunov.Proofs.Options.Resolve
import Lyapunov.Proofs.Solver.Refusal
import Lyapunov.Proofs.Derivative.Numbering
import Lyapunov.Proofs.Method.Renaming
import Lyapunov.Proofs.Solver.Renaming
import Lyapunov.Proofs.Solver.Adaptor
import Lyapunov.Proofs.Solver.Rebuild
import Lyapunov.Proofs.Equation.Convergence
import Lyapunov.Proofs.Solver.Convergence
import Lyapunov.Proofs.Equation.Definite
import Lyapunov.Proofs.Solver.Monotonicity
import Lyapunov.Proofs.Equation.Symmetry
import Lyapunov.Proofs.Solver.Scheme
import Lyapunov.Proofs.Solver.Symmetry
import Lyapunov.Proofs.Func.Call
import Lyapunov.Proofs.Options.Resolution
import Lyapunov.Proofs.Func.Blocks
import Lyapunov.Proofs.Graph.Collect
import Lyapunov.Proofs.Func.Length
import Lyapunov.Proofs.Graph.Numbers
import Lyapunov.Proofs.Solver.Size
import Lyapunov.Proofs.Graph.Spending
import Lyapunov.Proofs.Derivative.Length
import Lyapunov.Proofs.Func.Sparse
import Lyapunov.Proofs.Exact.Kronecker
import Lyapunov.Proofs.Graph.Creation
import Lyapunov.Proofs.Expr.Creation
import Lyapunov.Proofs.Method.Creation
import Lyapunov.Proofs.Derivative.Creation
import Lyapunov.Proofs.Solver.Creation
import Lyapunov.Proofs.Session.Operation
import Lyapunov.Proofs.Session.Identity
