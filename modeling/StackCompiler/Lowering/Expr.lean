import StackCompiler.Lowering.State

/-!
Code for expressions, hook by hook of a reading walk.

Operands leave their values on the stack and the node's own instruction follows them. A compound
assignment loads its target before the value is computed and applies the operator between value and
target. The tree is taken as it is: what typing should have filled in and did not is a fault.
-/
namespace StackCompiler

def Expr.typed (e : Expr) : Except Fault Ty :=
  match e.ty with
  | some ty => .ok ty
  | none => .error (.unresolvedType e.noun e.line)

def Expr.variableTarget (e : Expr) : Except Fault (Ty × VarId) :=
  match e with
  | .name _ _ (some (.variable id)) => e.typed.map (·, id)
  | .name _ identifier none => .error (.unresolvedBinding identifier e.line)
  | _ => .error (.invalidTarget e.line)

def Arith.opcode (op : Arith) (ty : Ty) (line : Nat) : Except Fault Opcode :=
  if ty.isNumeric then .ok (.arith op ty.kind) else .error (.unknownOperator op.symbol ty line)

/-- A comparison is chosen by the type of its left operand; booleans compare as ints. -/
def Comparison.opcode (op : Comparison) (left : Ty) (line : Nat) : Except Fault Opcode :=
  if left.isNumeric || op.isEquality then .ok (.compare op left.kind)
  else .error (.unknownOperator op.symbol left line)

def negateOpcode (ty : Ty) (line : Nat) : Except Fault Opcode :=
  if ty.isNumeric then .ok (.negate ty.kind)
  else .error (.unknownOperator UnaryOp.negate.symbol ty line)

namespace Lowering

def binaryOpcode (op : BinaryOp) (left whole : Expr) : Except Fault Opcode :=
  match op with
  | .arith op => whole.typed.bind (op.opcode · whole.line)
  | .compare op => left.typed.bind (op.opcode · whole.line)
  | .logic op => .ok (.logic op)

def enterExpr (e : Expr) : Lower Unit := do
  atLine e.line
  if (← get).mode = .store ∧ ¬ e.isName then throw (.invalidTarget e.line)
  match e with
  | .binary .. | .unary .. | .cast .. => openValue
  | .assign _ op target _ =>
      if op.isCompound then
        let (ty, id) ← demand target.variableTarget
        load ty id
      openAssign
  | .call .. => openCall
  | .bool .. | .int .. | .double .. | .name .. => pure ()

def betweenExpr (e : Expr) : Lower Unit := do
  match e with
  | .assign note op _ value =>
      match op.arithmetic? with
      | some op =>
          let ty ← demand value.typed
          let opcode ← demand (op.opcode ty note.line)
          emit opcode
      | none => pure ()
      setMode .store
  | _ => pure ()

def leaveName (e : Expr) (name : String) (binding : Option Binding) : Lower Unit := do
  match binding, (← get).mode with
  | none, _ => throw (.unresolvedBinding name e.line)
  | some (.function id), .load => emitting (Emitter.writeIndexed .pushFunction id.index "function")
  | some (.variable id), .load =>
      let ty ← demand e.typed
      load ty id
  | some (.variable id), .store =>
      let ty ← demand e.typed
      store ty id
      if (← get).keepsValue then load ty id
  | some (.function _), .store => throw (.invalidTarget e.line)

/-- Stores the changed value and loads it again as the value of the expression. -/
def leaveMutation (opcode : Opcode) (operand : Expr) : Lower Unit := do
  let (_, id) ← demand operand.variableTarget
  emit opcode
  store .int id
  load .int id

def leaveUnary (e : Expr) (op : UnaryOp) (operand : Expr) : Lower Unit := do
  match op with
  | .negate =>
      let ty ← demand e.typed
      let opcode ← demand (negateOpcode ty e.line)
      emit opcode
  | .not => emit .not
  | .increment => leaveMutation .increment operand
  | .decrement => leaveMutation .decrement operand

def leaveExpr (e : Expr) : Lower Unit := do
  atLine e.line
  match e with
  | .bool _ value => emitting (Emitter.pushBool value)
  | .int _ value => emitting (Emitter.pushInt value)
  | .double _ value => emitting (Emitter.pushDouble value)
  | .name _ name binding => leaveName e name binding
  | .binary _ op left _ =>
      closeValue
      let opcode ← demand (binaryOpcode op left e)
      emit opcode
  | .unary _ op operand =>
      closeValue
      leaveUnary e op operand
  | .cast _ kind _ =>
      closeValue
      emit (.convert kind)
  | .assign .. => closeAssign
  | .call .. =>
      closeCall
      emit .invoke

end Lowering

end StackCompiler
