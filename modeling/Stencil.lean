import Stencil.Access
import Stencil.AccessError
import Stencil.Affine
import Stencil.Checked
import Stencil.Cluster
import Stencil.CommandLine
import Stencil.DataSpace
import Stencil.Decimal.Double
import Stencil.Decimal.Fixed
import Stencil.Decimal.Shortest
import Stencil.Dependence
import Stencil.Diagnostic
import Stencil.Dimension
import Stencil.Direction
import Stencil.Equation
import Stencil.Expr.Basic
import Stencil.Expr.Build
import Stencil.Expr.Eval
import Stencil.Expr.Text
import Stencil.Expr.Traverse
import Stencil.FlowGraph
import Stencil.Fraction
import Stencil.Fraction.Approximate
import Stencil.FunctionDecl
import Stencil.Fusion
import Stencil.Grid
import Stencil.Halo.Basic
import Stencil.Halo.Classify
import Stencil.Halo.Scheme
import Stencil.Interner
import Stencil.Interval
import Stencil.IterationSpace
import Stencil.Json.Basic
import Stencil.Json.Build
import Stencil.Json.Number
import Stencil.Json.Reader
import Stencil.Json.Writer
import Stencil.LoadError
import Stencil.LoweredEquation
import Stencil.Main
import Stencil.OffsetVector
import Stencil.Optimization
import Stencil.OrdMap
import Stencil.OrderedAt
import Stencil.Problem.Basic
import Stencil.Problem.File
import Stencil.Problem.Formula
import Stencil.Proofs.Access
import Stencil.Proofs.Affine.Arithmetic
import Stencil.Proofs.Affine.Coefficients
import Stencil.Proofs.Affine.Denote
import Stencil.Proofs.Affine.Exact
import Stencil.Proofs.Affine.RoundTrip
import Stencil.Proofs.Affine.Words
import Stencil.Proofs.Analysis
import Stencil.Proofs.Axes
import Stencil.Proofs.Body
import Stencil.Proofs.DataSpace
import Stencil.Proofs.DataSpace.Exact
import Stencil.Proofs.DataSpace.Union
import Stencil.Proofs.Execution
import Stencil.Proofs.Expr.Canonical
import Stencil.Proofs.Expr.Closure
import Stencil.Proofs.Expr.Compose
import Stencil.Proofs.Expr.Defined
import Stencil.Proofs.Expr.Denote
import Stencil.Proofs.Expr.Eval
import Stencil.Proofs.Expr.Literal
import Stencil.Proofs.Expr.Naming
import Stencil.Proofs.Expr.Reading
import Stencil.Proofs.Expr.References
import Stencil.Proofs.Expr.Regroup
import Stencil.Proofs.Expr.Replace
import Stencil.Proofs.Expr.Within
import Stencil.Proofs.FlowGraph.Readers
import Stencil.Proofs.FlowGraph.TimeInvariant
import Stencil.Proofs.Formula
import Stencil.Proofs.Fraction
import Stencil.Proofs.Fusion.Arrange
import Stencil.Proofs.Fusion.Destination
import Stencil.Proofs.Fusion.Judge
import Stencil.Proofs.Fusion.Maximal
import Stencil.Proofs.Fusion.Partition
import Stencil.Proofs.Fusion.Preserve
import Stencil.Proofs.Fusion.Scalar
import Stencil.Proofs.Fusion.Verdict
import Stencil.Proofs.Guards
import Stencil.Proofs.Halo.Amounts
import Stencil.Proofs.Halo.Basic
import Stencil.Proofs.Halo.Classify
import Stencil.Proofs.Halo.Coverage
import Stencil.Proofs.Halo.Local
import Stencil.Proofs.Halo.Mask
import Stencil.Proofs.Halo.Sweep
import Stencil.Proofs.IterationSpace
import Stencil.Proofs.Json
import Stencil.Proofs.Loops
import Stencil.Proofs.Mirror.Classify
import Stencil.Proofs.Mirror.Equation
import Stencil.Proofs.Mirror.Halo
import Stencil.Proofs.Mirror.Program
import Stencil.Proofs.Mirror.Scope
import Stencil.Proofs.Mirror.Space
import Stencil.Proofs.OffsetVector
import Stencil.Proofs.OffsetVector.Comparable
import Stencil.Proofs.OffsetVector.Group
import Stencil.Proofs.Optimization
import Stencil.Proofs.OrdMap
import Stencil.Proofs.Points
import Stencil.Proofs.Problem
import Stencil.Proofs.Problem.RoundTrip
import Stencil.Proofs.Problem.WellFormed
import Stencil.Proofs.Schedule
import Stencil.Proofs.Scope.Basic
import Stencil.Proofs.Scope.Carried
import Stencil.Proofs.Scope.Classify
import Stencil.Proofs.Scope.Part
import Stencil.Proofs.Scope.Range
import Stencil.Proofs.Scope.Regular
import Stencil.Proofs.Scope.Total
import Stencil.Proofs.Scope.Uniform
import Stencil.Proofs.Slots
import Stencil.Proofs.Slots.Names
import Stencil.Proofs.SymbolTable
import Stencil.Proofs.SymbolTable.Calls
import Stencil.Proofs.Temporaries.Bindings
import Stencil.Proofs.Temporaries.Compact
import Stencil.Proofs.Temporaries.Dangling
import Stencil.Proofs.Temporaries.Eliminate
import Stencil.Proofs.Temporaries.Inline
import Stencil.Proofs.Temporaries.Order
import Stencil.Proofs.Temporaries.Promote
import Stencil.Proofs.Temporaries.Range
import Stencil.Proofs.Temporaries.Repetition
import Stencil.Proofs.Temporaries.Rounds
import Stencil.Proofs.Temporaries.Unfold
import Stencil.Proofs.Tuning.Enrich
import Stencil.Proofs.Tuning.Fastest
import Stencil.Proofs.Tuning.Footprint
import Stencil.Proofs.Tuning.Frame
import Stencil.Proofs.Tuning.Independence
import Stencil.Proofs.Tuning.Shapes
import Stencil.Proofs.Tuning.Trials
import Stencil.Proofs.Uniform
import Stencil.Remark
import Stencil.Remark.Schedule
import Stencil.Report
import Stencil.Schedule
import Stencil.Scope
import Stencil.Sort
import Stencil.SymbolTable
import Stencil.Temporaries.Compact
import Stencil.Temporaries.Eliminate
import Stencil.Temporaries.Promote
import Stencil.Text.Extending
import Stencil.Text.Quoted
import Stencil.Text.Unprintable
import Stencil.Tuning.BlockShape
import Stencil.Tuning.Elapsed
import Stencil.Tuning.Footprint
import Stencil.Tuning.Operator
import Stencil.Tuning.Options
import Stencil.Tuning.Results
import Stencil.Tuning.Simulated
import Stencil.Tuning.Store
import Stencil.Tuning.Tune
import Stencil.View.Cluster
import Stencil.View.Dependence
import Stencil.View.Error
import Stencil.View.Expr
import Stencil.View.Halo
import Stencil.View.Problem
import Stencil.View.Schedule
import Stencil.View.Scope
import Stencil.View.Space
import Stencil.View.Tuning
import Stencil.Word
