import StackCompiler.Proofs.Language.Erasure
import StackCompiler.Typing.Expr

/-!
What typing does to names.

Whatever the types are and whatever is wrong with them, typing binds the names of a fresh expression
as the ledger resolves them and reports the ones it cannot resolve, each once and in visiting order.
-/
namespace StackCompiler

def Diagnostic.unknown? (d : Diagnostic) : Option (Nat × String) :=
  match d.problem with
  | .unknownName name => some (d.line, name)
  | _ => none

def unknowns (diagnostics : List Diagnostic) : List (Nat × String) :=
  diagnostics.filterMap Diagnostic.unknown?

@[simp] theorem unknowns_nil : unknowns [] = [] := rfl

@[simp] theorem unknowns_append (first second : List Diagnostic) :
    unknowns (first ++ second) = unknowns first ++ unknowns second :=
  List.filterMap_append ..

namespace Typing
variable (line : Nat)

theorem binary_erased (op : BinaryOp) (left right : Expr) :
    (binary line op left right).node.erased =
      .binary ⟨line, none⟩ op left.erased right.erased ∧
      unknowns (binary line op left right).diagnostics = [] := by
  unfold binary
  split
  · split <;> simp [Expr.erased, unknowns, Diagnostic.unknown?]
  · exact ⟨rfl, rfl⟩

theorem shape_problem_known {op : UnaryOp} {operand : Expr} {problem : Problem}
    (found : op.shapeProblem? operand = some problem) :
    unknowns [⟨line, problem⟩] = [] := by
  unfold UnaryOp.shapeProblem? at found
  split at found
  · split at found <;> cases found <;> rfl
  · cases found

theorem unary_erased (op : UnaryOp) (operand : Expr) :
    (unary line op operand).node.erased = .unary ⟨line, none⟩ op operand.erased ∧
      unknowns (unary line op operand).diagnostics = [] := by
  unfold unary
  split
  · rename_i found
    exact ⟨rfl, shape_problem_known line found⟩
  · exact ⟨rfl, rfl⟩
  · split <;> exact ⟨rfl, rfl⟩

theorem assign_erased (op : AssignOp) (target value : Expr) :
    (assign line op target value).node.erased =
      .assign ⟨line, none⟩ op target.erased value.erased ∧
      unknowns (assign line op target value).diagnostics = [] := by
  unfold assign
  split
  · split
    · split
      · exact ⟨rfl, rfl⟩
      · split
        · simp [Expr.erased]
        · exact ⟨rfl, rfl⟩
    · exact ⟨rfl, rfl⟩
  · exact ⟨rfl, rfl⟩
  · exact ⟨rfl, rfl⟩

theorem arguments_erased (callee : String) (position : Nat) (types : List Ty) (args : List Expr) :
    (arguments line callee position types args).node.map Expr.erased = args.map Expr.erased ∧
      unknowns (arguments line callee position types args).diagnostics = [] := by
  induction types generalizing position args with
  | nil => exact ⟨rfl, rfl⟩
  | cons required types ih =>
      cases args with
      | nil => exact ⟨rfl, rfl⟩
      | cons arg args =>
          obtain ⟨nodes, reports⟩ := ih (position + 1) args
          unfold arguments
          split
          · exact ⟨by simp [nodes], reports⟩
          · split
            · exact ⟨by simp [nodes], reports⟩
            · exact ⟨by simp [nodes], reports⟩

theorem callOf_erased (callee : Expr) (args : List Expr) (name : String) (params : List Ty)
    (returns : Ty) :
    (callOf line callee args name params returns).node.erased =
        .call ⟨line, none⟩ callee.erased (args.map Expr.erased) ∧
      unknowns (callOf line callee args name params returns).diagnostics = [] := by
  unfold callOf
  split
  · exact ⟨by simp [Expr.erased], rfl⟩
  · obtain ⟨nodes, reports⟩ := arguments_erased line name 1 params args
    exact ⟨by simp [Expr.erased, nodes], reports⟩

end Typing

namespace Ledger

def meaning (ledger : Ledger) (name : String) : Option Binding := (ledger.resolve name).map Prod.fst

theorem typeCall_erased (ledger : Ledger) (line : Nat) (callee : Expr) (args : List Expr) :
    (ledger.typeCall line callee args).node.erased =
        .call ⟨line, none⟩ callee.erased (args.map Expr.erased) ∧
      unknowns (ledger.typeCall line callee args).diagnostics = [] := by
  unfold typeCall
  split
  · split
    · exact Typing.callOf_erased ..
    · exact ⟨by simp [Expr.erased], rfl⟩
  · exact ⟨by simp [Expr.erased], rfl⟩
  · exact ⟨by simp [Expr.erased], rfl⟩
  · exact ⟨by simp [Expr.erased], rfl⟩

theorem typeName_binds (ledger : Ledger) (line : Nat) (name : String) :
    (ledger.typeName line name none).node.erased =
      .name ⟨line, none⟩ name (ledger.meaning name) ∧
      unknowns (ledger.typeName line name none).diagnostics =
        if (ledger.meaning name).isNone then [(line, name)] else [] := by
  unfold typeName meaning
  split
  · rename_i binding ty found
    simp [found, Expr.erased]
  · rename_i missing
    simp [missing, Expr.erased, unknowns, Diagnostic.unknown?]

theorem typeArgs_eq (ledger : Ledger) (args : List Expr) :
    ledger.typeArgs args = ⟨args.map fun arg => (ledger.typeExpr arg).node,
      args.flatMap fun arg => (ledger.typeExpr arg).diagnostics⟩ := by
  induction args with
  | nil => rfl
  | cons arg rest ih => simp [typeArgs, ih]

/-- Typing binds the names of an expression, and it reports those that mean nothing. -/
def Binds (ledger : Ledger) (e : Expr) : Prop :=
  (ledger.typeExpr e).node.erased = e.bound ledger.meaning ∧
    unknowns (ledger.typeExpr e).diagnostics = e.unbound ledger.meaning

section
variable {ledger : Ledger} {line : Nat}

theorem binary_binds {op : BinaryOp} {left right : Expr} (first : ledger.Binds left)
    (second : ledger.Binds right) : ledger.Binds (.binary ⟨line, none⟩ op left right) := by
  obtain ⟨leftNode, leftReports⟩ := first
  obtain ⟨rightNode, rightReports⟩ := second
  obtain ⟨node, reports⟩ := Typing.binary_erased line op (ledger.typeExpr left).node
    (ledger.typeExpr right).node
  refine ⟨node.trans (by rw [leftNode, rightNode]; rfl), ?_⟩
  simp only [typeExpr, unknowns_append, leftReports, rightReports, reports]
  rw [Expr.unbound_binary, List.append_nil]

theorem unary_binds {op : UnaryOp} {operand : Expr} (inner : ledger.Binds operand) :
    ledger.Binds (.unary ⟨line, none⟩ op operand) := by
  obtain ⟨operandNode, operandReports⟩ := inner
  obtain ⟨node, reports⟩ := Typing.unary_erased line op (ledger.typeExpr operand).node
  refine ⟨node.trans (by rw [operandNode]; rfl), ?_⟩
  simp only [typeExpr, unknowns_append, operandReports, reports]
  rw [Expr.unbound_unary, List.append_nil]

theorem assign_binds {op : AssignOp} {target value : Expr} (first : ledger.Binds value)
    (second : ledger.Binds target) : ledger.Binds (.assign ⟨line, none⟩ op target value) := by
  obtain ⟨valueNode, valueReports⟩ := first
  obtain ⟨targetNode, targetReports⟩ := second
  obtain ⟨node, reports⟩ := Typing.assign_erased line op (ledger.typeExpr target).node
    (ledger.typeExpr value).node
  refine ⟨node.trans (by rw [targetNode, valueNode]; rfl), ?_⟩
  simp only [typeExpr, unknowns_append, targetReports, valueReports, reports]
  rw [Expr.unbound_assign, List.append_nil]

/-- The arguments are visited before the callee, and so are their reports. -/
theorem call_binds {callee : Expr} {args : List Expr} (first : ∀ arg ∈ args, ledger.Binds arg)
    (second : ledger.Binds callee) : ledger.Binds (.call ⟨line, none⟩ callee args) := by
  obtain ⟨calleeNode, calleeReports⟩ := second
  have argNodes : (ledger.typeArgs args).node.map Expr.erased =
      args.map (Expr.bound ledger.meaning) := by
    rw [typeArgs_eq, List.map_map]
    exact List.map_congr_left fun arg member => (first arg member).1
  have argReports : unknowns (ledger.typeArgs args).diagnostics =
      args.flatMap (Expr.unbound ledger.meaning) := by
    rw [typeArgs_eq, unknowns, List.filterMap_flatMap, List.flatMap_def, List.flatMap_def]
    exact congrArg List.flatten (List.map_congr_left fun arg member => (first arg member).2)
  obtain ⟨node, reports⟩ := typeCall_erased ledger line (ledger.typeExpr callee).node
    (ledger.typeArgs args).node
  refine ⟨node.trans (by rw [calleeNode, argNodes, ← Expr.boundArgs_eq]; rfl), ?_⟩
  simp only [typeExpr, unknowns_append, calleeReports, argReports, reports]
  rw [Expr.unbound_call, List.append_nil]

end

/-- Names are bound and reported independently of all types. -/
theorem typeExpr_binds (ledger : Ledger) (e : Expr) (fresh : e.Fresh) : ledger.Binds e := by
  induction e with
  | bool note value | int note value | double note value =>
      obtain ⟨line, ty⟩ := note
      have untyped : ty = none := fresh _ (Expr.self_mem_nodes _)
      exact ⟨by simp [typeExpr, Expr.erased, Expr.bound, untyped], rfl⟩
  | name note identifier binding =>
      obtain ⟨line, ty⟩ := note
      obtain ⟨rfl, rfl⟩ : ty = none ∧ binding = none := fresh _ (Expr.self_mem_nodes _)
      rw [Binds, Expr.unbound_name]
      exact typeName_binds ledger line identifier
  | binary note op left right first second =>
      obtain ⟨line, ty⟩ := note
      obtain ⟨leftFresh, rightFresh, rfl⟩ := (Expr.fresh_binary _).mp fresh
      exact binary_binds (first leftFresh) (second rightFresh)
  | unary note op operand inner =>
      obtain ⟨line, ty⟩ := note
      obtain ⟨operandFresh, rfl⟩ := (Expr.fresh_unary _).mp fresh
      exact unary_binds (inner operandFresh)
  | assign note op target value first second =>
      obtain ⟨line, ty⟩ := note
      obtain ⟨valueFresh, targetFresh, rfl⟩ := (Expr.fresh_assign _).mp fresh
      exact assign_binds (second valueFresh) (first targetFresh)
  | call note callee args target inner =>
      obtain ⟨line, ty⟩ := note
      obtain ⟨argsFresh, calleeFresh, rfl⟩ := (Expr.fresh_call _).mp fresh
      exact call_binds (fun arg member => inner arg member (argsFresh arg member))
        (target calleeFresh)
  | cast note kind operand inner => exact absurd fresh (Expr.not_fresh_cast _)

end Ledger
end StackCompiler
