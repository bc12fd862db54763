import StackCompiler.Language.Operator
import StackCompiler.Language.Ty

/-!
The instruction set of the stack machine.

An instruction pops its operands and pushes its result. Those that touch a value come in a variant
for each kind of machine value; booleans travel as ints. The byte of an opcode is its place in the
table, and `ofByte?` reads the table back.
-/
namespace StackCompiler

inductive Kind
  | int
  | double
deriving DecidableEq, Repr

def Ty.kind : Ty → Kind
  | .boolean | .int => .int
  | .double => .double

inductive Opcode
  | push (kind : Kind)
  | load (kind : Kind)
  | store (kind : Kind)
  | pushFunction
  | invoke
  | arith (op : Arith) (kind : Kind)
  | negate (kind : Kind)
  | increment
  | decrement
  | compare (op : Comparison) (kind : Kind)
  | logic (op : Connective)
  | not
  | convert (cast : Cast)
  | pop
  | pushStackPointer
  | popStackPointer
  | goto
  | label
deriving DecidableEq, Repr

def Kind.place : Kind → Nat
  | int => 0
  | double => 1

def Kind.mnemonic : Kind → String
  | int => "INT"
  | double => "DOUBLE"

def Arith.place : Arith → Nat
  | add => 0
  | sub => 1
  | mul => 2
  | div => 3
  | mod => 4

def Arith.mnemonic : Arith → String
  | add => "ADD"
  | sub => "SUB"
  | mul => "MUL"
  | div => "DIV"
  | mod => "MOD"

def Comparison.place : Comparison → Nat
  | greater => 0
  | greaterEqual => 1
  | less => 2
  | lessEqual => 3
  | equal => 4
  | notEqual => 5

def Comparison.mnemonic : Comparison → String
  | greater => "GT"
  | greaterEqual => "GE"
  | less => "LT"
  | lessEqual => "LE"
  | equal => "EQ"
  | notEqual => "NE"

namespace Opcode

def place : Opcode → Nat
  | push kind => kind.place
  | load kind => 2 + kind.place
  | store kind => 4 + kind.place
  | pushFunction => 6
  | invoke => 7
  | arith op kind => 8 + 2 * op.place + kind.place
  | negate kind => 18 + kind.place
  | increment => 20
  | decrement => 21
  | compare op kind => 22 + 2 * op.place + kind.place
  | logic .and => 34
  | logic .or => 35
  | not => 36
  | convert .intToDouble => 37
  | convert .doubleToInt => 38
  | pop => 39
  | pushStackPointer => 40
  | popStackPointer => 41
  | goto => 42
  | label => 43

def byte (op : Opcode) : UInt8 := UInt8.ofNat op.place

def table : Array Opcode :=
  #[push .int, push .double, load .int, load .double, store .int, store .double,
    pushFunction, invoke,
    arith .add .int, arith .add .double, arith .sub .int, arith .sub .double,
    arith .mul .int, arith .mul .double, arith .div .int, arith .div .double,
    arith .mod .int, arith .mod .double, negate .int, negate .double, increment, decrement,
    compare .greater .int, compare .greater .double,
    compare .greaterEqual .int, compare .greaterEqual .double,
    compare .less .int, compare .less .double, compare .lessEqual .int, compare .lessEqual .double,
    compare .equal .int, compare .equal .double, compare .notEqual .int, compare .notEqual .double,
    logic .and, logic .or, not, convert .intToDouble, convert .doubleToInt,
    pop, pushStackPointer, popStackPointer, goto, label]

def ofByte? (b : UInt8) : Option Opcode := table[b.toNat]?

theorem ofByte?_byte (op : Opcode) : ofByte? op.byte = some op := by
  cases op with
  | push kind | load kind | store kind | negate kind => cases kind <;> rfl
  | arith op kind => cases op <;> cases kind <;> rfl
  | compare op kind => cases op <;> cases kind <;> rfl
  | logic op => cases op <;> rfl
  | convert cast => cases cast <;> rfl
  | _ => rfl

/-- How many index operands follow the opcode byte. -/
def arity : Opcode → Nat
  | push _ | load _ | store _ | pushFunction | goto | label => 1
  | _ => 0

/-- One tag for each operand; the only kind of operand is an index. -/
def signature (op : Opcode) : String := String.ofList (List.replicate op.arity 'i')

def operandSize (op : Opcode) : Nat := 2 * op.arity

def size (op : Opcode) : Nat := 1 + op.operandSize

def mnemonic : Opcode → String
  | push kind => "PUSH_" ++ kind.mnemonic
  | load kind => "PUSH_STATIC_" ++ kind.mnemonic
  | store kind => "POP_STATIC_" ++ kind.mnemonic
  | pushFunction => "PUSH_FUNCTION"
  | invoke => "INVOKE"
  | arith op kind => op.mnemonic ++ "_" ++ kind.mnemonic
  | negate kind => "MINUS_" ++ kind.mnemonic
  | increment => "INCREMENT"
  | decrement => "DECREMENT"
  | compare op kind => op.mnemonic ++ "_" ++ kind.mnemonic
  | logic .and => "LOGICAL_AND"
  | logic .or => "LOGICAL_OR"
  | not => "LOGICAL_NOT"
  | convert .intToDouble => "CAST_INT_TO_DOUBLE"
  | convert .doubleToInt => "CAST_DOUBLE_TO_INT"
  | pop => "POP"
  | pushStackPointer => "PUSH_STACK_POINTER"
  | popStackPointer => "POP_STACK_POINTER"
  | goto => "GOTO"
  | label => "LABEL"

end Opcode

end StackCompiler
