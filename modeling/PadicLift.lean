import PadicLift.Bound
import PadicLift.CommandLine.Options
import PadicLift.CommandLine.Session
import PadicLift.Document.Basic
import PadicLift.Document.Fields
import PadicLift.Document.Integers
import PadicLift.Document.Json
import PadicLift.Document.Moment
import PadicLift.Document.Node
import PadicLift.Document.Quantity
import PadicLift.Document.Scalar
import PadicLift.Document.Yaml
import PadicLift.Document.Yaml.Cursor
import PadicLift.Document.Yaml.Label
import PadicLift.Document.Yaml.Lexer
import PadicLift.Document.Yaml.Literal
import PadicLift.Document.Yaml.Plain
import PadicLift.Document.Yaml.Quoted
import PadicLift.Document.Yaml.Token
import PadicLift.Document.Yaml.Tree
import PadicLift.Fault
import PadicLift.Lifting.Container
import PadicLift.Lifting.Mixed
import PadicLift.Lifting.Reference
import PadicLift.Lifting.Run
import PadicLift.Lifting.Trial
import PadicLift.Log.Journal
import PadicLift.Log.Manifest
import PadicLift.Log.Sha256
import PadicLift.Main
import PadicLift.Matrix.Basic
import PadicLift.Matrix.Cells
import PadicLift.Matrix.Nested
import PadicLift.Matrix.Tensor
import PadicLift.Modular.Elimination
import PadicLift.Modular.Product
import PadicLift.Modular.Reduce
import PadicLift.Number.Binary64
import PadicLift.Number.Decimal
import PadicLift.Number.Inverse
import PadicLift.Number.Logarithm
import PadicLift.Number.Machine
import PadicLift.Number.Mixed
import PadicLift.Number.Primality
import PadicLift.Plan
import PadicLift.Position
import PadicLift.Prime.Extent
import PadicLift.Prime.Pool
import PadicLift.Prime.Source
import PadicLift.Proofs.Bound
import PadicLift.Proofs.Bound.Exact
import PadicLift.Proofs.CommandLine
import PadicLift.Proofs.Lifting.Container
import PadicLift.Proofs.Lifting.Invariant
import PadicLift.Proofs.Lifting.Reference
import PadicLift.Proofs.Lifting.Refinement
import PadicLift.Proofs.Lifting.Run
import PadicLift.Proofs.Lifting.Session
import PadicLift.Proofs.Lifting.Step
import PadicLift.Proofs.Lifting.Unique
import PadicLift.Proofs.Lifting.Verified
import PadicLift.Proofs.Matrix.Basic
import PadicLift.Proofs.Matrix.Cramer
import PadicLift.Proofs.Matrix.Hadamard
import PadicLift.Proofs.Matrix.Nested
import PadicLift.Proofs.Matrix.Tensor
import PadicLift.Proofs.Modular.Blocks
import PadicLift.Proofs.Modular.Elimination
import PadicLift.Proofs.Modular.Inversion
import PadicLift.Proofs.Modular.Product
import PadicLift.Proofs.Modular.Storage
import PadicLift.Proofs.Number.Inverse
import PadicLift.Proofs.Number.Logarithm
import PadicLift.Proofs.Number.Machine
import PadicLift.Proofs.Number.Primality
import PadicLift.Proofs.Number.Quotient
import PadicLift.Proofs.Number.Rounding
import PadicLift.Proofs.Outcome
import PadicLift.Proofs.Plan
import PadicLift.Proofs.Plan.Cover
import PadicLift.Proofs.Plan.DigitCount
import PadicLift.Proofs.Plan.Estimate
import PadicLift.Proofs.Plan.Faults
import PadicLift.Proofs.Plan.Given
import PadicLift.Proofs.Plan.Known
import PadicLift.Proofs.Plan.Margin
import PadicLift.Proofs.Plan.Replacement
import PadicLift.Proofs.Plan.Rounds
import PadicLift.Proofs.Plan.Stages
import PadicLift.Proofs.Plan.WellFormed
import PadicLift.Proofs.Prime.Calls
import PadicLift.Proofs.Prime.Draws
import PadicLift.Proofs.Prime.Failures
import PadicLift.Proofs.Prime.Feed
import PadicLift.Proofs.Prime.Loop
import PadicLift.Proofs.Prime.Pool
import PadicLift.Proofs.Prime.Sixteenths
import PadicLift.Proofs.Prime.Size
import PadicLift.Proofs.Prime.Trim
import PadicLift.Proofs.Reconstruction.Calls
import PadicLift.Proofs.Reconstruction.Common
import PadicLift.Proofs.Reconstruction.Coprime
import PadicLift.Proofs.Reconstruction.Digits
import PadicLift.Proofs.Reconstruction.Expansion
import PadicLift.Proofs.Reconstruction.Fraction
import PadicLift.Proofs.Reconstruction.Remainders
import PadicLift.Proofs.Residue.Basis
import PadicLift.Proofs.Residue.Buffer
import PadicLift.Proofs.Residue.Conversion
import PadicLift.Proofs.Residue.Planes
import PadicLift.Proofs.Residue.Scaling
import PadicLift.Proofs.Solution
import PadicLift.Proofs.Solution.Check
import PadicLift.Proofs.Solution.Compared
import PadicLift.Proofs.Solution.Logged
import PadicLift.Proofs.Solution.Printed
import PadicLift.Reconstruction.Expansion
import PadicLift.Reconstruction.Fraction
import PadicLift.Reconstruction.Remainders
import PadicLift.Residue.Basis
import PadicLift.Residue.Buffer
import PadicLift.Residue.Planes
import PadicLift.Settings
import PadicLift.Solution
import PadicLift.System
import PadicLift.Text.Basic
import PadicLift.Text.Blank
import PadicLift.Text.DecimalDigit
import PadicLift.Text.Hidden
import PadicLift.Text.Numeral
import PadicLift.Text.Quoted
