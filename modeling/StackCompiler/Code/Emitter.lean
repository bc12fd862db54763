import StackCompiler.Code.Buffer
import StackCompiler.Code.Constant
import StackCompiler.Code.Label

/-!
Writing instructions.

An emitter holds the buffer of one body and, on loan, the constants and labels that all bodies
share. Every instruction is checked against its opcode before a byte is written. A step that fails
writes nothing, but a literal keeps the constant and a jump the label it had taken by then.
-/
namespace StackCompiler

structure Emitter where
  buffer : Buffer
  constants : ConstantPool
  labels : Labels
  line : Nat
deriving Repr

abbrev Emit := EStateM Fault Emitter

namespace Emitter

def start (constants : ConstantPool) (labels : Labels) (buffer : Buffer) : Emitter :=
  ⟨buffer, constants, labels, 1⟩

def atLine (line : Nat) : Emit Unit := modify fun e => { e with line }

/-- An instruction with the operands of its opcode always finds room in the buffer. -/
def write (opcode : Opcode) (operands : List UInt16) : Emit Unit :=
  if formed : Instruction.Formed ⟨opcode, operands⟩ then
    modify fun ⟨buffer, constants, labels, line⟩ =>
      let written := buffer.write? ⟨opcode, operands⟩ line
      ⟨written.get (buffer.write?_isSome formed line), constants, labels, line⟩
  else throw (.operandCount opcode operands.length)

def emit (opcode : Opcode) : Emit Unit := write opcode []

def writeIndexed (opcode : Opcode) (index : Nat) (table : String) : Emit Unit := do
  if UInt16.size ≤ index then throw (.indexOverflow table index)
  write opcode [UInt16.ofNat index]

def addConstant (constant : Constant) : Emit Nat :=
  modifyGet fun ⟨buffer, constants, labels, line⟩ =>
    let (index, constants) := constants.push constant
    (index, ⟨buffer, constants, labels, line⟩)

def pushInt (value : Int32) : Emit Unit := do
  writeIndexed (.push .int) (← addConstant (.int value)) "constant"

def pushDouble (value : Double) : Emit Unit := do
  writeIndexed (.push .double) (← addConstant (.double value)) "constant"

def pushBool (value : Bool) : Emit Unit := pushInt (if value then 1 else 0)

def labelling (step : EStateM Fault Labels UInt16) : Emit UInt16 :=
  fun ⟨buffer, constants, labels, line⟩ =>
    match step labels with
    | .ok id labels => .ok id ⟨buffer, constants, labels, line⟩
    | .error fault labels => .error fault ⟨buffer, constants, labels, line⟩

def jumpAhead : Emit UInt16 := do
  let id ← labelling Labels.issue
  write .goto [id]
  return id

def land : Emit UInt16 := do
  let id ← labelling Labels.resolve
  write .label [id]
  return id

end Emitter

end StackCompiler
