import StackCompiler.Scope.Ledger
import StackCompiler.Typing.Rule

/-!
Typing an expression.

Names are looked up in the ledger and each node is checked after its operands, which are taken in
the order in which they are evaluated. An expression declares nothing, so the ledger is the same
throughout.
-/
namespace StackCompiler.Ledger

/-- A name that stands for nothing keeps the binding it came with. -/
def typeName (ledger : Ledger) (line : Nat) (name : String) (old : Option Binding) : Typed Expr :=
  match ledger.resolve name with
  | some (binding, ty) => ⟨.name ⟨line, ty⟩ name (some binding), []⟩
  | none => ⟨.name ⟨line, none⟩ name old, [⟨line, .unknownName name⟩]⟩

def typeCall (ledger : Ledger) (line : Nat) (callee : Expr) (args : List Expr) : Typed Expr :=
  let untyped := Expr.call ⟨line, none⟩ callee args
  match callee with
  | .name _ _ (some (.function id)) =>
      match ledger.functionAt? id with
      | some entry => Typing.callOf line callee args entry.name entry.params entry.returns
      | none => ⟨untyped, []⟩
  | .name _ _ none => ⟨untyped, []⟩
  | .name _ name (some (.variable _)) => ⟨untyped, [⟨line, .notCallable name⟩]⟩
  | _ => ⟨untyped, [⟨line, .notCallable callee.noun⟩]⟩

mutual
def typeExpr (ledger : Ledger) : Expr → Typed Expr
  | .bool note value => ⟨.bool ⟨note.line, some .boolean⟩ value, []⟩
  | .int note value => ⟨.int ⟨note.line, some .int⟩ value, []⟩
  | .double note value => ⟨.double ⟨note.line, some .double⟩ value, []⟩
  | .name note name binding => ledger.typeName note.line name binding
  | .binary note op left right =>
      let left := typeExpr ledger left
      let right := typeExpr ledger right
      let whole := Typing.binary note.line op left.node right.node
      ⟨whole.node, left.diagnostics ++ right.diagnostics ++ whole.diagnostics⟩
  | .unary note op operand =>
      let operand := typeExpr ledger operand
      let whole := Typing.unary note.line op operand.node
      ⟨whole.node, operand.diagnostics ++ whole.diagnostics⟩
  | .assign note op target value =>
      let value := typeExpr ledger value
      let target := typeExpr ledger target
      let whole := Typing.assign note.line op target.node value.node
      ⟨whole.node, value.diagnostics ++ target.diagnostics ++ whole.diagnostics⟩
  | .call note callee args =>
      let args := typeArgs ledger args
      let callee := typeExpr ledger callee
      let whole := ledger.typeCall note.line callee.node args.node
      ⟨whole.node, args.diagnostics ++ callee.diagnostics ++ whole.diagnostics⟩
  | .cast note kind operand =>
      let operand := typeExpr ledger operand
      ⟨Typing.cast note.line kind operand.node, operand.diagnostics⟩

def typeArgs (ledger : Ledger) : List Expr → Typed (List Expr)
  | [] => ⟨[], []⟩
  | arg :: rest =>
      let arg := typeExpr ledger arg
      let rest := typeArgs ledger rest
      ⟨arg.node :: rest.node, arg.diagnostics ++ rest.diagnostics⟩
end

end StackCompiler.Ledger
