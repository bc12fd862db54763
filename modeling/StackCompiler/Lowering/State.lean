import StackCompiler.Code.Emitter
import StackCompiler.Code.Executable
import StackCompiler.Language.Program

/-!
The state in which code is generated.

An identifier is a load in one mode and a store in the other. An assignment switches to storing
before its target is visited, and whether the stored value has to stay on the stack depends on what
encloses the assignment: another assignment, a call, or a place that consumes a value, such as an
operand, an initializer or a condition. Three counters tell how many of each are open.
-/
namespace StackCompiler

inductive Mode
  | load
  | store
deriving DecidableEq, Repr

structure Lowering where
  emitter : Emitter
  statics : Array StaticVariable
  mode : Mode
  assigns : Nat
  calls : Nat
  values : Nat
deriving Repr

abbrev Lower := EStateM Fault Lowering

structure Shared where
  constants : ConstantPool
  labels : Labels
  statics : Array StaticVariable

structure LoweringOptions where
  initialCapacity : Nat
  capacityStep : Nat
  labelLimit : Nat
deriving DecidableEq, Repr

def LoweringOptions.default : LoweringOptions := ⟨0, 10, 100⟩

namespace Lowering

def start (options : LoweringOptions) (shared : Shared) : Lowering :=
  let buffer := Buffer.empty options.initialCapacity options.capacityStep
  ⟨.start shared.constants shared.labels buffer, shared.statics, .load, 0, 0, 0⟩

def shared (s : Lowering) : Shared := ⟨s.emitter.constants, s.emitter.labels, s.statics⟩

def emitting {α : Type} (step : Emit α) : Lower α :=
  fun ⟨emitter, statics, mode, assigns, calls, values⟩ =>
    match step emitter with
    | .ok result emitter => .ok result ⟨emitter, statics, mode, assigns, calls, values⟩
    | .error fault emitter => .error fault ⟨emitter, statics, mode, assigns, calls, values⟩

def demand {α : Type} : Except Fault α → Lower α
  | .ok answer => pure answer
  | .error fault => throw fault

def atLine (line : Nat) : Lower Unit := emitting (Emitter.atLine line)

def emit (opcode : Opcode) : Lower Unit := emitting (Emitter.emit opcode)

def setMode (mode : Mode) : Lower Unit := modify fun s => { s with mode }

def openValue : Lower Unit := modify fun s => { s with values := s.values + 1 }

def closeValue : Lower Unit := modify fun s => { s with values := s.values - 1 }

def openCall : Lower Unit := modify fun s => { s with calls := s.calls + 1 }

def closeCall : Lower Unit := modify fun s => { s with calls := s.calls - 1 }

def openAssign : Lower Unit := modify fun s => { s with assigns := s.assigns + 1 }

/-- After an assignment whose value somebody waits for, identifiers load again. -/
def closeAssign : Lower Unit := modify fun s =>
  let assigns := s.assigns - 1
  if 0 < assigns ∨ 0 < s.calls ∨ 0 < s.values then { s with assigns, mode := .load }
  else { s with assigns }

/-- Whether a store must leave its value on the stack. -/
def keepsValue (s : Lowering) : Bool := decide (1 < s.assigns ∨ 0 < s.calls ∨ 0 < s.values)

def load (ty : Ty) (id : VarId) : Lower Unit :=
  emitting (Emitter.writeIndexed (.load ty.kind) id.index "static")

def store (ty : Ty) (id : VarId) : Lower Unit :=
  emitting (Emitter.writeIndexed (.store ty.kind) id.index "static")

def slotOf (index : Nat) (table : String) : Except Fault UInt16 :=
  if UInt16.size ≤ index then .error (.indexOverflow table index) else .ok (UInt16.ofNat index)

def recordVariable (name : String) (ty : Ty) (id : VarId) : Lower Unit := do
  let slot ← demand (slotOf id.index "static")
  modify fun ⟨emitter, statics, mode, assigns, calls, values⟩ =>
    ⟨emitter, statics.push ⟨name, ty, slot⟩, mode, assigns, calls, values⟩

end Lowering

end StackCompiler
