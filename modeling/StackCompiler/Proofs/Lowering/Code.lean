import StackCompiler.Lowering.Expr
import StackCompiler.Proofs.Language.Nodes
import StackCompiler.Proofs.Lowering.Effect

/-!
The code of an expression as a function of the expression, and what the generator asks of one.

The generator works with one mode and three counters for a whole body. What it appends for an
expression depends on no more of that than whether anything waits for the value.
-/
namespace StackCompiler

/-- The opcodes of operators. They take everything from the stack. -/
def Opcode.isOperator : Opcode → Bool
  | arith .. | negate _ | compare .. | logic _ => true
  | _ => false

namespace Lowering

def written (line : Nat) (opcode : Opcode) : List Written := [⟨line, ⟨opcode, []⟩⟩]

def indexed (line : Nat) (opcode : Opcode) (index : Nat) : List Written :=
  [⟨line, ⟨opcode, [.ofNat index]⟩⟩]

def chosen (line : Nat) : Except Fault Opcode → List Written
  | .ok opcode => written line opcode
  | .error _ => []

def loaded (line : Nat) : Except Fault (Ty × VarId) → List Written
  | .ok (ty, id) => indexed line (.load ty.kind) id.index
  | .error _ => []

def stored (line : Nat) (keep : Bool) : Except Fault (Ty × VarId) → List Written
  | .ok (ty, id) => indexed line (.store ty.kind) id.index ++
      if keep then indexed line (.load ty.kind) id.index else []
  | .error _ => []

/-- A changed variable is stored and loaded as an int, whatever type it was given. -/
def changed (line : Nat) (opcode : Opcode) : Except Fault (Ty × VarId) → List Written
  | .ok (_, id) => written line opcode ++ indexed line (.store .int) id.index ++
      indexed line (.load .int) id.index
  | .error _ => []

def unaryCode (e : Expr) (op : UnaryOp) (operand : Expr) : List Written :=
  match op with
  | .negate => chosen e.line (e.typed.bind (negateOpcode · e.line))
  | .not => written e.line .not
  | .increment => changed e.line .increment operand.variableTarget
  | .decrement => changed e.line .decrement operand.variableTarget

/-- A compound assignment applies its operator at the type of the value. -/
def operatorCode (line whole : Nat) (op : AssignOp) (value : Expr) : List Written :=
  match op with
  | .plain => []
  | .compound op => chosen line (value.typed.bind (op.opcode · whole))

/-- Whether something waits for the value of what is visited next. -/
def waiting (assigns calls values : Nat) : Bool := decide (0 < assigns ∨ 0 < calls ∨ 0 < values)

end Lowering

namespace Expr
open Lowering

def isAssign : Expr → Bool
  | assign .. => true
  | _ => false

mutual
/-- The code of an expression when `base` constants stand before its own. Only an assignment nobody
waits for is told not to keep its value. -/
def code (base : Nat) (keep : Bool) (e : Expr) : List Written :=
  match e with
  | bool note _ | int note _ => indexed note.line (.push .int) base
  | double note _ => indexed note.line (.push .double) base
  | name note _ binding =>
      match binding with
      | some (.function id) => indexed note.line .pushFunction id.index
      | some (.variable _) => loaded note.line e.variableTarget
      | none => []
  | binary note op left right =>
      left.code base true ++ right.code (base + left.constants.length) true ++
        chosen note.line (binaryOpcode op left e)
  | unary _ op operand => operand.code base true ++ unaryCode e op operand
  | assign note op target value =>
      (if op.isCompound then loaded note.line target.variableTarget else []) ++
        value.code base true ++
        -- The operator is written before the target is visited, so at the line of the value.
        operatorCode value.line note.line op value ++
        stored target.line keep target.variableTarget
  | call note callee args =>
      codeOfArgs base args ++ callee.code (base + (args.flatMap constants).length) true ++
        written note.line .invoke
  | cast note kind operand => operand.code base true ++ written note.line (.convert kind)

def codeOfArgs (base : Nat) : List Expr → List Written
  | [] => []
  | arg :: rest => arg.code base true ++ codeOfArgs (base + arg.constants.length) rest
end

def Supplied (e : Expr) : Prop :=
  match e with
  | name _ _ binding =>
      match binding with
      | none => False
      | some (.function _) => True
      | some (.variable _) => Answered e.variableTarget
  | binary _ op left _ => Answered (binaryOpcode op left e)
  | unary _ .negate _ => Answered (e.typed.bind (negateOpcode · e.line))
  | unary _ .not _ => True
  | unary _ .increment operand | unary _ .decrement operand => Answered operand.variableTarget
  | assign note op target value =>
      Answered target.variableTarget ∧
        ∀ arith, op = .compound arith → Answered (value.typed.bind (arith.opcode · note.line))
  | bool .. | int .. | double .. | call .. | cast .. => True

def Ready (e : Expr) : Prop := ∀ node ∈ e.nodes, node.Supplied

def SlotFits : Expr → Prop
  | name _ _ (some (.variable id)) => id.index < UInt16.size
  | name _ _ (some (.function id)) => id.index < UInt16.size
  | _ => True

def Fits (base : Nat) (e : Expr) : Prop :=
  base + e.constants.length ≤ UInt16.size ∧ ∀ node ∈ e.nodes, node.SlotFits

end Expr

namespace Lowering

/-! What an answer says about the node it was asked of. -/

theorem variable_target_ok {e : Expr} {ty : Ty} {id : VarId}
    (known : e.variableTarget = .ok (ty, id)) :
    ∃ line identifier, e = .name ⟨line, some ty⟩ identifier (some (.variable id)) := by
  match e with
  | .name ⟨line, some ty⟩ identifier (some (.variable id)) =>
      cases known
      exact ⟨line, identifier, rfl⟩

theorem arith_opcode_ok {op : Arith} {ty : Ty} {line : Nat} {opcode : Opcode}
    (choice : op.opcode ty line = .ok opcode) : opcode = .arith op ty.kind := by
  simp only [Arith.opcode] at choice
  split at choice
  · exact (Except.ok.inj choice).symm
  · cases choice

theorem comparison_opcode_ok {op : Comparison} {left : Ty} {line : Nat} {opcode : Opcode}
    (choice : op.opcode left line = .ok opcode) : opcode = .compare op left.kind := by
  simp only [Comparison.opcode] at choice
  split at choice
  · exact (Except.ok.inj choice).symm
  · cases choice

theorem negate_opcode_ok {ty : Ty} {line : Nat} {opcode : Opcode}
    (choice : negateOpcode ty line = .ok opcode) : opcode = .negate ty.kind := by
  simp only [negateOpcode] at choice
  split at choice
  · exact (Except.ok.inj choice).symm
  · cases choice

theorem typed_bind_ok {α : Type} {e : Expr} {next : Ty → Except Fault α} {answer : α}
    (known : e.typed.bind next = .ok answer) : ∃ ty, e.ty = some ty ∧ next ty = .ok answer := by
  unfold Expr.typed at known
  split at known
  · rename_i ty found
    exact ⟨ty, found, known⟩
  · cases known

theorem operator_arity {opcode : Opcode} (operator : opcode.isOperator = true) :
    opcode.arity = 0 := by
  cases opcode <;> first | rfl | cases operator

theorem arith_operator {e : Expr} {op : Arith} {line : Nat} {opcode : Opcode}
    (choice : e.typed.bind (op.opcode · line) = .ok opcode) : opcode.isOperator = true := by
  rcases typed_bind_ok choice with ⟨ty, _, known⟩
  rw [arith_opcode_ok known]
  rfl

theorem negate_operator {e : Expr} {line : Nat} {opcode : Opcode}
    (choice : e.typed.bind (negateOpcode · line) = .ok opcode) : opcode.isOperator = true := by
  rcases typed_bind_ok choice with ⟨ty, _, known⟩
  rw [negate_opcode_ok known]
  rfl

theorem binary_operator {op : BinaryOp} {left whole : Expr} {opcode : Opcode}
    (choice : binaryOpcode op left whole = .ok opcode) : opcode.isOperator = true := by
  cases op with
  | arith op => exact arith_operator choice
  | compare op =>
      rcases typed_bind_ok choice with ⟨ty, _, known⟩
      rw [comparison_opcode_ok known]
      rfl
  | logic op =>
      cases choice
      rfl

end Lowering
end StackCompiler
