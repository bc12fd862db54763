import StackCompiler.Code.Opcode

/-!
Faults: a promise between two passes is broken.

A fault never describes a mistake of the programmer. Either the tree was malformed when it came in,
or a pass left it without something that the next one needs, or a limit of the format is exceeded.
-/
namespace StackCompiler

inductive Fault
  | unresolvedType (node : String) (line : Nat)
  | unresolvedBinding (name : String) (line : Nat)
  | unknownOperator (symbol : String) (ty : Ty) (line : Nat)
  | invalidTarget (line : Nat)
  | blockUnderflow
  | blockOverflow (limit : Nat)
  | unclosedBlocks (depth : Nat)
  | labelUnderflow
  | labelOverflow (limit : Nat)
  | unclosedConditionals (depth : Nat)
  | operandCount (opcode : Opcode) (found : Nat)
  | indexOverflow (table : String) (index : Nat)
deriving DecidableEq, Repr

def Fault.text : Fault → String
  | unresolvedType node line =>
      s!"line {line}: {node} reached code generation without a resolved type"
  | unresolvedBinding name line =>
      s!"line {line}: '{name}' reached code generation without a binding"
  | unknownOperator symbol ty line => s!"line {line}: no instruction for '{symbol}' on {ty.name}"
  | invalidTarget line => s!"line {line}: expression is not assignable"
  | blockUnderflow => "block END recorded without a matching BEGIN"
  | blockOverflow limit => s!"blocks nested deeper than {limit}"
  | unclosedBlocks depth => s!"{depth} block(s) left open at end of compilation unit"
  | labelUnderflow => "conditional LEAVE marker without a matching ENTER"
  | labelOverflow limit => s!"conditionals nested deeper than {limit}"
  | unclosedConditionals depth => s!"{depth} conditional(s) left open at end of code body"
  | operandCount opcode found =>
      s!"{opcode.mnemonic} takes {opcode.arity} operand(s), {found} given"
  | indexOverflow table index => s!"{table} index {index} does not fit in a 2-byte operand"

end StackCompiler
