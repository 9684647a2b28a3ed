import ScratchMachine.Program.Codec
import ScratchMachine.Disassembly
import ScratchMachine.Machine
import ScratchMachine.Expr.Equality
import ScratchMachine.Compilation
import ScratchMachine.Proofs.Walk
import ScratchMachine.Proofs.Search
import ScratchMachine.Proofs.CodeRun
import ScratchMachine.Proofs.MachineRun
import ScratchMachine.Proofs.Layout
import ScratchMachine.Proofs.Trees
import ScratchMachine.Proofs.Evaluation
import ScratchMachine.Proofs.Linking
import ScratchMachine.Proofs.Fragments
import ScratchMachine.Proofs.Lowering
import ScratchMachine.Proofs.Declaring
import ScratchMachine.Proofs.Assembly
import ScratchMachine.Proofs.Checking
import ScratchMachine.Proofs.Confinement
import ScratchMachine.Proofs.Heights
import ScratchMachine.Proofs.Builders
import ScratchMachine.Proofs.CallFrames
import ScratchMachine.Proofs.ControlFlow
import ScratchMachine.Proofs.Refusals
import ScratchMachine.Proofs.Shapes
import ScratchMachine.Proofs.Enclosure
import ScratchMachine.Proofs.Steady
import ScratchMachine.Proofs.Resolution
import ScratchMachine.Proofs.Dangling
import ScratchMachine.Proofs.Moves
import ScratchMachine.Proofs.Prologues
import ScratchMachine.Proofs.Parameters
import ScratchMachine.Proofs.Activations
import ScratchMachine.Proofs.Receiving
import ScratchMachine.Proofs.RoundTrip
import ScratchMachine.Proofs.Allocation
import ScratchMachine.Proofs.Precedence
import ScratchMachine.Proofs.Scanning
import ScratchMachine.Proofs.StaticHeights
import ScratchMachine.Proofs.Rendering
import ScratchMachine.Proofs.Weights
import ScratchMachine.Proofs.StaticCheck
import ScratchMachine.Proofs.Acceptance
import ScratchMachine.Proofs.Replacement
import ScratchMachine.Proofs.Detours
import ScratchMachine.Proofs.Aliasing
import ScratchMachine.Proofs.Moments
import ScratchMachine.Proofs.DeclarationStates
import ScratchMachine.Proofs.Pending
import ScratchMachine.Proofs.Worklist
import ScratchMachine.Proofs.Granted
import ScratchMachine.Proofs.Ownership
import ScratchMachine.Proofs.Additions
import ScratchMachine.Proofs.Coverage
import ScratchMachine.Proofs.Availability
import ScratchMachine.Proofs.Twins
import ScratchMachine.Proofs.DeadCode
import ScratchMachine.Proofs.Versions
import ScratchMachine.Proofs.Limits
import ScratchMachine.Proofs.Resources
import ScratchMachine.Proofs.Forward
import ScratchMachine.Proofs.Termination
import ScratchMachine.Proofs.Relocation
import ScratchMachine.Proofs.Numbers
import ScratchMachine.Proofs.SideBySide
import ScratchMachine.Proofs.Contexts
import ScratchMachine.Proofs.Resemblance
import ScratchMachine.Proofs.Retries
import ScratchMachine.Proofs.Outlines
import ScratchMachine.Proofs.Listing
import ScratchMachine.Proofs.OperandOrder
import ScratchMachine.Proofs.Sites
import ScratchMachine.Proofs.Passing
import ScratchMachine.Proofs.Forwarding
import ScratchMachine.Proofs.Postorder
import ScratchMachine.Proofs.LinkingLaws
import ScratchMachine.Proofs.SingleAssignment
import ScratchMachine.Proofs.Underflow
import ScratchMachine.Proofs.CallChain
import ScratchMachine.Proofs.Normalising
import ScratchMachine.Proofs.Markers
import ScratchMachine.Proofs.Factorial
import ScratchMachine.Proofs.Portions
