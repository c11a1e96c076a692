import Datapack.Proofs.Ir.Cursor
import Datapack.Proofs.Ir.Equality
import Datapack.Main
import Datapack.Proofs.Optimize.Folding.Branches
import Datapack.Proofs.Optimize.Folding.Stability
import Datapack.Proofs.Ir.Eval
import Datapack.Proofs.Command.Arithmetic
import Datapack.Proofs.Command.Comparison
import Datapack.Proofs.Ir.Structured
import Datapack.Proofs.Generation.Unwinding
import Datapack.Proofs.Generation.Regions
import Datapack.Proofs.Generation.Processing
import Datapack.Proofs.Generation.Plan
import Datapack.Proofs.Generation.Frames
import Datapack.Proofs.Generation.Growth
import Datapack.Proofs.Generation.Checks
import Datapack.Proofs.Generation.Statements
import Datapack.Proofs.Generation.Positions
import Datapack.Proofs.Generation.ControlFlow
import Datapack.Proofs.Generation.Routine
import Datapack.Proofs.Generation.Lowering
import Datapack.Proofs.Ir.Spans
import Datapack.Proofs.Optimize.Schedule
import Datapack.Proofs.Optimize.Run
import Datapack.Proofs.Optimize.Convergence
import Datapack.Proofs.Optimize.Validity
import Datapack.Proofs.Optimize.DeadCode
import Datapack.Proofs.Optimize.Liveness
import Datapack.Proofs.Optimize.Unreachable
import Datapack.Proofs.Optimize.Callers
import Datapack.Proofs.Optimize.Entrances
import Datapack.Proofs.Optimize.Idleness
import Datapack.Proofs.Optimize.Folding.Completeness
import Datapack.Proofs.Optimize.Folding.Headers
import Datapack.Proofs.Ir.Thinning
import Datapack.Proofs.Ir.Validity
import Datapack.Proofs.Optimize.Exits
import Datapack.Proofs.Optimize.Folding.Types
import Datapack.Proofs.Command.Spared
import Datapack.Proofs.Generation.Changes
import Datapack.Proofs.Generation.Marks
import Datapack.Proofs.Generation.Signals
import Datapack.Proofs.Generation.Slots
import Datapack.Proofs.Path
import Datapack.Proofs.Command.Callees
import Datapack.Proofs.Generation.Overlap
import Datapack.Proofs.Generation.References
import Datapack.Proofs.Generation.Closure
import Datapack.Proofs.Output.Files
import Datapack.Proofs.Dependency.Install
import Datapack.Proofs.Document.Decode
import Datapack.Proofs.Compilation.Verdict
import Datapack.Proofs.Generation.Lines
import Datapack.Proofs.Optimize.Folding.Expressible
import Datapack.Proofs.Generation.Evaluation
import Datapack.Proofs.Generation.Loops
import Datapack.Proofs.Generation.Joining
import Datapack.Proofs.Generation.Returning
import Datapack.Proofs.Ir.Subtyping
import Datapack.Proofs.Ir.Trail
import Datapack.Proofs.Command.Pool
import Datapack.Proofs.Command.Rendering
import Datapack.Proofs.Ir.Cycles
import Datapack.Proofs.Pack.Manifest
import Datapack.Proofs.Dependency.Directory
import Datapack.Proofs.Dependency.Fetch
import Datapack.Proofs.Ir.Accesses
import Datapack.Proofs.Generation.Scopes
