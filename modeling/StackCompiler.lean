import StackCompiler.Compile
import StackCompiler.Walk.Trace
import StackCompiler.Proofs.Language.Nodes
import StackCompiler.Proofs.Lowering.Code
import StackCompiler.Proofs.Walk.Order
import StackCompiler.Proofs.Lowering.Expressions
import StackCompiler.Proofs.Lowering.Statements
import StackCompiler.Proofs.Lowering.Bodies
import StackCompiler.Proofs.Scope.Layers
import StackCompiler.Proofs.Scope.Frames
import StackCompiler.Proofs.Language.Erasure
import StackCompiler.Proofs.Scope.Resolution
import StackCompiler.Proofs.Typing.Names
import StackCompiler.Proofs.Typing.Resolution
import StackCompiler.Proofs.Walk.Runs
import StackCompiler.Proofs.Typing.Checked
import StackCompiler.Proofs.Language.Bare
import StackCompiler.Proofs.Typing.Clean
import StackCompiler.Proofs.Lowering.Markers
import StackCompiler.Proofs.Lowering.Safety
import StackCompiler.Proofs.Code.Decoding
import StackCompiler.Proofs.Code.LabelTable
import StackCompiler.Proofs.Lowering.Shape
import StackCompiler.Proofs.Machine.Step
import StackCompiler.Proofs.Machine.Evaluation
import StackCompiler.Proofs.Machine.Line
import StackCompiler.Proofs.Machine.Expressions
import StackCompiler.Proofs.Machine.Statements
import StackCompiler.Proofs.Machine.Bodies
import StackCompiler.Proofs.Scope.Confinement
import StackCompiler.Proofs.Typing.Sealing
import StackCompiler.Proofs.Typing.Elaboration
import StackCompiler.Proofs.Walk.Watching
import StackCompiler.Proofs.Typing.Passages
import StackCompiler.Proofs.Machine.Operands
import StackCompiler.Proofs.Machine.Kinds
import StackCompiler.Proofs.Machine.KindSafety
import StackCompiler.Proofs.Typing.Annotation
import StackCompiler.Proofs.Typing.Repetition
import StackCompiler.Proofs.Lowering.Brackets
import StackCompiler.Proofs.Walk.Logging
import StackCompiler.Proofs.Typing.Misfits
import StackCompiler.Proofs.Lowering.Chunks
import StackCompiler.Proofs.Lowering.Literals
import StackCompiler.Proofs.Code.Session
import StackCompiler.Proofs.Machine.Paths
import StackCompiler.Proofs.Typing.Blocks
import StackCompiler.Proofs.Machine.Saves
import StackCompiler.Proofs.Typing.Variables
import StackCompiler.Proofs.Lowering.Tables
import StackCompiler.Proofs.Lowering.References
import StackCompiler.Proofs.Code.Format
import StackCompiler.Proofs.Scope.Borders
import StackCompiler.Proofs.Language.Masking
import StackCompiler.Proofs.Typing.Masking
import StackCompiler.Proofs.Lowering.Masking
import StackCompiler.Proofs.Lowering.Secrecy
import StackCompiler.Proofs.Typing.Conversions
import StackCompiler.Proofs.Walk.Aborting
import StackCompiler.Proofs.Walk.Agreement
import StackCompiler.Proofs.Walk.Calls
import StackCompiler.Proofs.Typing.Skeleton
import StackCompiler.Proofs.Scope.Innermost
import StackCompiler.Proofs.Typing.Declarations
import StackCompiler.Proofs.Lowering.Lines
import StackCompiler.Proofs.Lowering.Attribution
import StackCompiler.Proofs.Code.Opcodes
import StackCompiler.Proofs.Walk.Dialogue
import StackCompiler.Proofs.Walk.Ending
import StackCompiler.Proofs.Walk.Journal
import StackCompiler.Proofs.Walk.Matching
import StackCompiler.Proofs.Walk.Places
import StackCompiler.Proofs.Code.LabelHistory
import StackCompiler.Proofs.Lowering.Counters
import StackCompiler.Proofs.Machine.Heights
import StackCompiler.Proofs.Machine.Neutrality
