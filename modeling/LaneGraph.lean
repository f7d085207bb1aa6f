import LaneGraph.Word.Single
import LaneGraph.Word.Half
import LaneGraph.Word.Fingerprint
import LaneGraph.Arithmetic.Power
import LaneGraph.Arithmetic.Integer
import LaneGraph.Arithmetic.Composite
import LaneGraph.Kind
import LaneGraph.Stream.Format
import LaneGraph.Decimal.Shortest
import LaneGraph.Decimal.Text
import LaneGraph.Lanes
import LaneGraph.Literal
import LaneGraph.Operator
import LaneGraph.Graph.Node
import LaneGraph.Graph.Error
import LaneGraph.Graph.Basic
import LaneGraph.Graph.Overload
import LaneGraph.Graph.Build
import LaneGraph.Graph.Walk
import LaneGraph.Graph.Sharing
import LaneGraph.Operator.Meaning
import LaneGraph.Pass.Sweep
import LaneGraph.Pass.Typing
import LaneGraph.Pass.Vectors
import LaneGraph.Pass.Scalars
import LaneGraph.Pass.Folding
import LaneGraph.Pass.Lowering
import LaneGraph.Pass.Consistency
import LaneGraph.Pass.Pipeline
import LaneGraph.Code.Opcode
import LaneGraph.Machine.Error
import LaneGraph.Code.Encoded
import LaneGraph.Code.Instruction
import LaneGraph.Code.Program
import LaneGraph.Schedule.Order
import LaneGraph.Schedule.Allocation
import LaneGraph.Schedule.Emission
import LaneGraph.Compiler
import LaneGraph.Stream.Buffer
import LaneGraph.Machine.Native
import LaneGraph.Machine.Binding
import LaneGraph.Machine.Step
import LaneGraph.Machine.Basic
import LaneGraph.Exchange.Document
import LaneGraph.Exchange.Writer
import LaneGraph.Exchange.Reader
import LaneGraph.Exchange.Codec
import LaneGraph.Sample
import LaneGraph.CommandLine
import LaneGraph.Main
import LaneGraph.Proofs.Mixer
import LaneGraph.Proofs.Half
import LaneGraph.Proofs.Results
import LaneGraph.Proofs.Walk
import LaneGraph.Proofs.Allocation
import LaneGraph.Proofs.Schedule
import LaneGraph.Proofs.Decoding
import LaneGraph.Proofs.Encoding
import LaneGraph.Proofs.Stores
import LaneGraph.Proofs.Evaluation
import LaneGraph.Proofs.Emission
import LaneGraph.Proofs.Execution
import LaneGraph.Proofs.Programs
import LaneGraph.Proofs.Binding
import LaneGraph.Proofs.Sizes
import LaneGraph.Proofs.Steps
import LaneGraph.Proofs.Safety
import LaneGraph.Proofs.Frame
import LaneGraph.Proofs.Independence
import LaneGraph.Proofs.Building
import LaneGraph.Proofs.Consistency
import LaneGraph.Proofs.Extraction
import LaneGraph.Proofs.Interpretation
import LaneGraph.Proofs.Written
import LaneGraph.Proofs.Sharing
import LaneGraph.Proofs.Denotation
import LaneGraph.Proofs.Uniqueness
import LaneGraph.Proofs.Mixing
import LaneGraph.Proofs.Sketches
import LaneGraph.Proofs.Resolution
import LaneGraph.Proofs.Deduction
import LaneGraph.Proofs.Drafts
import LaneGraph.Proofs.Refusals
import LaneGraph.Proofs.WellFormed
import LaneGraph.Proofs.Patterns
import LaneGraph.Proofs.Compilation
import LaneGraph.Proofs.Acceptance
import LaneGraph.Proofs.Conditions
import LaneGraph.Proofs.Settling
import LaneGraph.Proofs.Tapering
import LaneGraph.Proofs.Slimming
import LaneGraph.Proofs.Residue
import LaneGraph.Proofs.NormalForm
import LaneGraph.Proofs.Supplies
import LaneGraph.Proofs.Slots
import LaneGraph.Proofs.Arena
import LaneGraph.Proofs.Growth
import LaneGraph.Proofs.Sweeping
import LaneGraph.Proofs.Expansion
import LaneGraph.Proofs.Ascent
import LaneGraph.Proofs.Closure
import LaneGraph.Proofs.Termination
import LaneGraph.Proofs.Disjointness
import LaneGraph.Proofs.Modes
import LaneGraph.Proofs.Primitives
import LaneGraph.Proofs.Scalarization
import LaneGraph.Proofs.Preservation
import LaneGraph.Proofs.Powers
import LaneGraph.Proofs.Registers
import LaneGraph.Proofs.Lifetimes
import LaneGraph.Proofs.Operands
import LaneGraph.Proofs.Choice
import LaneGraph.Proofs.Widths
import LaneGraph.Proofs.Components
import LaneGraph.Proofs.Lacks
import LaneGraph.Proofs.Subscripts
import LaneGraph.Proofs.Symbols
import LaneGraph.Proofs.Traversal
