import StackCompiler.Proofs.Lowering.Markers
import StackCompiler.Proofs.Machine.Step

/-!
Direct evaluation of an analysed tree.

Operands are evaluated from left to right, arguments before the callee, and a compound assignment
reads its target before its value is computed. An operator works at the kind of its operands.
Evaluation gives nothing on a tree that has no meaning: a name that stands for nothing, an
assignment to something that is no variable, a call of something that is no function.
-/
namespace StackCompiler

variable {Bases : Type}

namespace Expr

def kind? (e : Expr) : Option Kind := e.ty.map Ty.kind

def slot? : Expr → Option VarId
  | name _ _ (some (.variable id)) => some id
  | _ => none

end Expr

namespace Operations
variable (vm : Operations Bases)

def binary (op : BinaryOp) (kind : Kind) : Value → Value → Value :=
  match op with
  | .arith op => vm.arith op kind
  | .compare op => vm.compare op kind
  | .logic op => vm.logic op

def unary (op : UnaryOp) (kind : Kind) : Value → Value :=
  match op with
  | .negate => vm.negate kind
  | .not => vm.not
  | .increment => vm.increment
  | .decrement => vm.decrement

end Operations

namespace Expr

mutual
/-- The value of an expression and the statics after its assignments and calls. -/
def eval (vm : Operations Bases) (e : Expr) (statics : Statics) : Option (Value × Statics) :=
  match e with
  | bool _ value => some (.int (if value then 1 else 0), statics)
  | int _ value => some (.int value, statics)
  | double _ value => some (.double value, statics)
  | name _ _ binding =>
      match binding with
      | some (.variable id) => some (statics id, statics)
      | some (.function id) => some (.function id, statics)
      | none => none
  | binary _ op left right => do
      let kind ← left.kind?
      let (first, statics) ← left.eval vm statics
      let (second, statics) ← right.eval vm statics
      return (vm.binary op kind first second, statics)
  | unary _ op operand => do
      let kind ← operand.kind?
      let (value, statics) ← operand.eval vm statics
      let result := vm.unary op kind value
      if op.mutates then
        let id ← operand.slot?
        return (result, statics.set id result)
      else return (result, statics)
  | assign _ op target value => do
      let id ← target.slot?
      let kind ← target.kind?
      let before := statics id
      let (value, statics) ← value.eval vm statics
      let result := op.arithmetic?.elim value fun op => vm.arith op kind before value
      return (result, statics.set id result)
  | call _ callee args => do
      let (args, statics) ← evalArgs vm args statics
      let (target, statics) ← callee.eval vm statics
      match target with
      | .function id => return vm.call id args statics
      | .int _ | .double _ => none
  | cast _ kind operand => do
      let (value, statics) ← operand.eval vm statics
      return (vm.convert kind value, statics)

def evalArgs (vm : Operations Bases) (args : List Expr) (statics : Statics) :
    Option (List Value × Statics) :=
  match args with
  | [] => some ([], statics)
  | arg :: rest => do
      let (value, statics) ← arg.eval vm statics
      let (values, statics) ← evalArgs vm rest statics
      return (value :: values, statics)
end

end Expr

/-- What a statement does, and how many conditionals it leaves behind that did not hold. -/
def Stmt.eval (vm : Operations Bases) (s : Stmt) (memory : Memory Bases) :
    Option (Memory Bases × Nat) :=
  match s with
  | expr _ value => do
      let (_, statics) ← value.eval vm memory.statics
      return (⟨statics, memory.bases⟩, 0)
  | declare _ decl =>
      match decl.init with
      | none => some (memory, 0)
      | some init => do
          let (value, statics) ← init.eval vm memory.statics
          let id ← decl.id
          return (⟨statics.set id value, memory.bases⟩, 0)
  | beginBlock _ => some (⟨memory.statics, vm.saveBase memory.bases⟩, 0)
  | endBlock _ => some (⟨memory.statics, vm.restoreBase memory.bases⟩, 0)
  | enterIf _ condition => do
      let (value, statics) ← condition.eval vm memory.statics
      return (⟨statics, memory.bases⟩, if vm.holds value then 0 else 1)
  | leaveIf _ => some (memory, 0)

/-- Statements in order. While a conditional that did not hold is open, nothing is evaluated, and
only the conditionals in it are counted. -/
def evalStmts (vm : Operations Bases) :
    List Stmt → (skipped : Nat) → Memory Bases → Option (Memory Bases)
  | [], _, memory => some memory
  | s :: rest, 0, memory => do
      let (memory, skipped) ← s.eval vm memory
      evalStmts vm rest skipped memory
  | s :: rest, skipped + 1, memory =>
      evalStmts vm rest (skipped + 1 + s.enters.toNat - s.leaves.toNat) memory

/-- Gives the parameters of a function their arguments, in the order of their declaration. -/
def bindParams : List Param → List Value → Statics → Option Statics
  | [], [], statics => some statics
  | param :: params, value :: args, statics => do
      let id ← param.id
      bindParams params args (statics.set id value)
  | _, _, _ => none

def Function.eval (vm : Operations Bases) (f : Function) (args : List Value)
    (memory : Memory Bases) :
    Option (Memory Bases) := do
  let statics ← bindParams f.stored args memory.statics
  evalStmts vm f.stmts 0 ⟨statics, memory.bases⟩

end StackCompiler
