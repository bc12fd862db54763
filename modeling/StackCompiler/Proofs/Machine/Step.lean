import StackCompiler.Code.Executable
import StackCompiler.Language.Expr
import StackCompiler.Proofs.Code.LabelTable
import Mathlib.Logic.Relation

/-!
The stack machine that runs an executable.

Operators, conversions, the test of a condition, the saving of frame bases and what a call does are
left to the machine that is built; `Operations` stands for any choice of them. What is fixed is how
an instruction moves values between the operand stack and the static slots, and where the machine
goes on.
-/
namespace StackCompiler

inductive Value
  | int (value : Int32)
  | double (value : Double)
  | function (id : FunId)
deriving DecidableEq, Repr

def Constant.value : Constant → Value
  | int value => .int value
  | double value => .double value

def Constant.kind : Constant → Kind
  | int _ => .int
  | double _ => .double

abbrev Statics := VarId → Value

def Statics.set (statics : Statics) (id : VarId) (value : Value) : Statics :=
  fun other => if other = id then value else statics other

structure Operations (Bases : Type) where
  arith : Arith → Kind → Value → Value → Value
  compare : Comparison → Kind → Value → Value → Value
  logic : Connective → Value → Value → Value
  negate : Kind → Value → Value
  not : Value → Value
  increment : Value → Value
  decrement : Value → Value
  convert : Cast → Value → Value
  holds : Value → Bool
  call : FunId → List Value → Statics → Value × Statics
  saveBase : Bases → Bases
  restoreBase : Bases → Bases

/-- What statements work on: the static slots and the frame bases that blocks save. -/
structure Memory (Bases : Type) where
  statics : Statics
  bases : Bases

namespace Machine
variable {Bases : Type}

structure State (Bases : Type) where
  stack : List Value
  memory : Memory Bases

namespace State

def push (s : State Bases) (value : Value) : State Bases := ⟨value :: s.stack, s.memory⟩

def mapTop (operation : Value → Value) : State Bases → Option (State Bases)
  | ⟨value :: stack, memory⟩ => some ⟨operation value :: stack, memory⟩
  | ⟨[], _⟩ => none

/-- Replaces the two values on top by a function of them, the left one having been pushed first. -/
def mapTwo (operation : Value → Value → Value) : State Bases → Option (State Bases)
  | ⟨right :: left :: stack, memory⟩ => some ⟨operation left right :: stack, memory⟩
  | _ => none

def store (id : VarId) : State Bases → Option (State Bases)
  | ⟨value :: stack, ⟨statics, bases⟩⟩ =>
      some ⟨stack, ⟨statics.set id value, bases⟩⟩
  | ⟨[], _⟩ => none

def drop : State Bases → Option (State Bases)
  | ⟨_ :: stack, memory⟩ => some ⟨stack, memory⟩
  | ⟨[], _⟩ => none

def mapBases (step : Bases → Bases) : State Bases → State Bases
  | ⟨stack, ⟨statics, bases⟩⟩ => ⟨stack, ⟨statics, step bases⟩⟩

end State

section
variable (vm : Operations Bases) (exe : Executable)

/-- A call takes the function reference and as many arguments as the function has parameters. -/
def invoke : State Bases → Option (State Bases)
  | ⟨.function id :: stack, ⟨statics, bases⟩⟩ =>
      exe.functions[id.index]?.bind fun f =>
        let count := f.params.length
        if stack.length < count then none
        else
          let (result, statics) := vm.call id (stack.take count).reverse statics
          some ⟨result :: stack.drop count, ⟨statics, bases⟩⟩
  | _ => none

/-- What an instruction that is no jump does to the state; nothing, if it does not apply. -/
def execute (i : Instruction) (s : State Bases) : Option (State Bases) :=
  match i.opcode, i.operands with
  | .push kind, [index] =>
      (exe.constants.get? index.toNat).bind fun constant =>
        if constant.kind = kind then some (s.push constant.value) else none
  | .load _, [slot] => some (s.push (s.memory.statics ⟨slot.toNat⟩))
  | .store _, [slot] => s.store ⟨slot.toNat⟩
  | .pushFunction, [place] => some (s.push (.function ⟨place.toNat⟩))
  | .invoke, [] => invoke vm exe s
  | .arith op kind, [] => s.mapTwo (vm.arith op kind)
  | .compare op kind, [] => s.mapTwo (vm.compare op kind)
  | .logic op, [] => s.mapTwo (vm.logic op)
  | .negate kind, [] => s.mapTop (vm.negate kind)
  | .not, [] => s.mapTop vm.not
  | .increment, [] => s.mapTop vm.increment
  | .decrement, [] => s.mapTop vm.decrement
  | .convert cast, [] => s.mapTop (vm.convert cast)
  | .pop, [] => s.drop
  | .pushStackPointer, [] => some (s.mapBases vm.saveBase)
  | .popStackPointer, [] => some (s.mapBases vm.restoreBase)
  | .label, [_] => some s
  | _, _ => none

structure Config (Bases : Type) where
  offset : Nat
  state : State Bases

/-- A jump takes the condition off the stack and is taken when it does not hold. -/
def jump (chunk : Chunk) (id : UInt16) (next : Nat) : State Bases → Option (Config Bases)
  | ⟨condition :: stack, memory⟩ =>
      if vm.holds condition then some ⟨next, ⟨stack, memory⟩⟩
      else (chunk.labelAt? id).map (⟨·, ⟨stack, memory⟩⟩)
  | ⟨[], _⟩ => none

/-- One instruction; there is no step where none starts or where it does not apply. -/
def step (chunk : Chunk) (c : Config Bases) : Option (Config Bases) :=
  (chunk.instructionAt? c.offset).bind fun i =>
    let next := c.offset + i.opcode.size
    match i with
    | ⟨.goto, [id]⟩ => jump vm chunk id next c.state
    | i => (execute vm exe i c.state).map (⟨next, ·⟩)

def Reaches (chunk : Chunk) : Config Bases → Config Bases → Prop :=
  Relation.ReflTransGen fun c d => step vm exe chunk c = some d

/-- The machine, started at the beginning of a chunk, stops at its end. -/
def Completes (chunk : Chunk) (s t : State Bases) : Prop :=
  Reaches vm exe chunk ⟨0, s⟩ ⟨chunk.size, t⟩ ∧
    step vm exe chunk ⟨chunk.size, t⟩ = none

theorem step_end (chunk : Chunk) (s : State Bases) :
    step vm exe chunk ⟨chunk.size, s⟩ = none := by
  simp only [step, chunk.instructionAt?_end, Option.bind_none]

end

end Machine
end StackCompiler
