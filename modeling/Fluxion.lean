import Fluxion.Expression.Text
import Fluxion.Function
import Fluxion.Models
import Fluxion.Proofs.Schedule.Faithful
import Fluxion.Proofs.Scalar.Building
import Fluxion.Proofs.Scalar.Reading
import Fluxion.Proofs.Scalar.Runs
import Fluxion.Proofs.Scalar.Forward
import Fluxion.Proofs.Scalar.Pairing
import Fluxion.Proofs.Scalar.Reverse
import Fluxion.Proofs.Scalar.Compile
import Fluxion.Proofs.Scalar.Derivatives
import Fluxion.Proofs.Pattern.Positions
import Fluxion.Proofs.Jacobian.Seeding
import Fluxion.Proofs.Scalar.Dependencies
import Fluxion.Proofs.History.Family
import Fluxion.Proofs.History.Scalar
import Fluxion.Proofs.Jacobian.Seeds
import Fluxion.Proofs.Jacobian.Scalar
import Fluxion.Proofs.Matrix.Typing
import Fluxion.Proofs.Pattern.Maps
import Fluxion.Proofs.Matrix.Building
import Fluxion.Proofs.Matrix.Routines
import Fluxion.Proofs.Matrix.Meaning
import Fluxion.Proofs.Matrix.Compile
import Fluxion.Proofs.Matrix.Sweeping
import Fluxion.Proofs.Matrix.Functions
import Fluxion.Proofs.Lifting.Replacing
import Fluxion.Proofs.Lifting.Pass
import Fluxion.Proofs.History.Matrix
import Fluxion.Proofs.Lifting.Values
import Fluxion.Proofs.Matrix.Evaluation
import Fluxion.Proofs.Lifting.Exact
import Fluxion.Proofs.Scalar.Checked
import Fluxion.Proofs.History.Embedding
import Fluxion.Proofs.Expansion.Simulation
import Fluxion.Proofs.Expansion.Symbols
import Fluxion.Proofs.Expansion.Values
import Fluxion.Proofs.Expansion.Function
import Fluxion.Proofs.Matrix.Operations
import Fluxion.Proofs.History.Reference
import Fluxion.Proofs.Matrix.Partials
import Fluxion.Proofs.Matrix.Tangents
import Fluxion.Proofs.Jacobian.Plans
import Fluxion.Proofs.Coloring.Star
import Fluxion.Proofs.Scalar.Watched
import Fluxion.Proofs.Scalar.Symmetry
import Fluxion.Proofs.Jacobian.Hessian
import Fluxion.Proofs.Jacobian.Routines
import Fluxion.Proofs.Matrix.Order
import Fluxion.Proofs.Matrix.Calls
import Fluxion.Proofs.Matrix.Directions
import Fluxion.Proofs.Matrix.Forward
import Fluxion.Proofs.Matrix.Adjoints
import Fluxion.Proofs.Matrix.Backward
import Fluxion.Proofs.Matrix.Linearity
import Fluxion.Proofs.Jacobian.MatrixSeeds
import Fluxion.Proofs.Jacobian.Matrix
import Fluxion.Proofs.Jacobian.Expansion
import Fluxion.Proofs.History.Dependencies
import Fluxion.Proofs.Scalar.Requests
import Fluxion.Proofs.Scalar.Irreducible
import Fluxion.Proofs.Schedule.Locality
import Fluxion.Proofs.History.Names
import Fluxion.Proofs.History.Ownership
import Fluxion.Proofs.Jacobian.MatrixHessian
import Fluxion.Proofs.Room.Requests
import Fluxion.Proofs.Scalar.Transpose
import Fluxion.Proofs.Scalar.Simplification
import Fluxion.Proofs.Matrix.Closing
import Fluxion.Proofs.Jacobian.Sweeps
import Fluxion.Proofs.History.Sweeps
import Fluxion.Proofs.Scalar.Directions
import Fluxion.Proofs.Scalar.Lookup
import Fluxion.Proofs.History.Calls
import Fluxion.Proofs.History.Derivatives
import Fluxion.Proofs.Expansion.Refusals
import Fluxion.Proofs.Refusals.Builders
import Fluxion.Proofs.Refusals.Requests
import Fluxion.Proofs.History.Gradients
import Fluxion.Proofs.Schedule.Reachability
import Fluxion.Proofs.Scalar.Contents
import Fluxion.Proofs.Matrix.Contents
import Fluxion.Proofs.History.Contents
import Fluxion.Proofs.History.Reachability
import Fluxion.Proofs.Refusals.Scalar
import Fluxion.Proofs.Text.References
import Fluxion.Proofs.Text.Spelling
import Fluxion.Proofs.Text.Printing
import Fluxion.Proofs.Pattern.Sets
import Fluxion.Proofs.Schedule.Pressure
import Fluxion.Proofs.Expansion.Dependencies
import Fluxion.Proofs.Scalar.Relabeling
import Fluxion.Proofs.Matrix.Identities
import Fluxion.Proofs.History.Answers
import Fluxion.Proofs.History.Lifecycle
import Fluxion.Proofs.Pattern.Compressed
import Fluxion.Proofs.Pattern.Transposition
import Fluxion.Proofs.Pattern.Joining
import Fluxion.Proofs.Pattern.Projection
import Fluxion.Proofs.Scalar.Calculus
import Fluxion.Proofs.Schedule.Recursion
import Fluxion.Proofs.Jacobian.Assembly
import Fluxion.Proofs.History.Gathering
