import StackCompiler.Proofs.Language.Bare
import StackCompiler.Proofs.Typing.Clean

/-!
Analysis fills in and does nothing else.

Every step leaves its part of the tree with the bare form it had: a rule keeps the operands in their
places and puts at most casts around them, a declaration gets an id. A member that is not reached is
not touched at all, so this is true of a visit that stopped as well as of one that went through.
-/
namespace StackCompiler

/-! Expressions. -/

namespace Expr
variable (note : Note)

theorem bare_binary (op : BinaryOp) (left right : Expr) :
    (binary note op left right).bare = binary ⟨note.line, none⟩ op left.bare right.bare := rfl

theorem bare_unary (op : UnaryOp) (operand : Expr) :
    (unary note op operand).bare = unary ⟨note.line, none⟩ op operand.bare := rfl

theorem bare_assign (op : AssignOp) (target value : Expr) :
    (assign note op target value).bare = assign ⟨note.line, none⟩ op target.bare value.bare :=
  rfl

theorem bare_call (callee : Expr) (args : List Expr) :
    (call note callee args).bare = call ⟨note.line, none⟩ callee.bare (args.map bare) := by
  simp [bare, erased, bound]

theorem bare_cast (kind : Cast) (operand : Expr) :
    (cast note kind operand).bare = operand.bare := rfl

theorem bare_nodes (e : Expr) : e.bare.nodes = e.originals.map bare := by
  induction e with
  | bool | int | double | name => rfl
  | binary note op left right first second =>
      rw [bare_binary, nodes_binary, first, second, originals_plain (nodes_binary ..) rfl,
        List.filter_append, List.map_append, List.map_append]
      rfl
  | unary note op operand inner =>
      rw [bare_unary, nodes_unary, inner, originals_plain (nodes_unary ..) rfl, List.map_append]
      rfl
  | assign note op target value first second =>
      rw [bare_assign, nodes_assign, first, second, originals_plain (nodes_assign ..) rfl,
        List.filter_append, List.map_append, List.map_append]
      rfl
  | call note callee args target inner =>
      have passed : (args.map bare).flatMap nodes = (args.flatMap originals).map bare := by
        rw [List.flatMap_map, List.map_flatMap, List.flatMap_def, List.flatMap_def,
          List.map_congr_left inner]
      rw [bare_call, nodes_call, nodesOfArgs_eq, passed, target,
        originals_plain (nodes_call ..) rfl, nodesOfArgs_eq,
        List.filter_append, List.filter_flatMap, List.map_append, List.map_append,
          List.map_singleton, bare_call]
      rfl
  | cast note kind operand inner =>
      rw [bare_cast, inner, originals, originals, nodes_cast, List.filter_append]
      exact congrArg (List.map bare) (List.append_nil _).symm

theorem bare_of_erased {e other : Expr} (same : e.erased = other) : e.bare = other.bare := by
  rw [← same, bare_erased]

end Expr

theorem Ledger.typeExpr_bare (ledger : Ledger) (e : Expr) :
    (ledger.typeExpr e).node.bare = e.bare := by
  induction e with
  | bool | int | double => rfl
  | name note identifier binding =>
      unfold typeExpr typeName
      split <;> rfl
  | binary note op left right first second =>
      rw [typeExpr, Expr.bare_of_erased (Typing.binary_erased ..).1, Expr.bare_binary,
        Expr.bare_binary, Expr.bare_erased, Expr.bare_erased, first, second]
  | unary note op operand inner =>
      rw [typeExpr, Expr.bare_of_erased (Typing.unary_erased ..).1, Expr.bare_unary,
        Expr.bare_unary, Expr.bare_erased, inner]
  | assign note op target value first second =>
      rw [typeExpr, Expr.bare_of_erased (Typing.assign_erased ..).1, Expr.bare_assign,
        Expr.bare_assign, Expr.bare_erased, Expr.bare_erased, first, second]
  | call note callee args target inner =>
      have passed : (ledger.typeArgs args).node.map Expr.bare = args.map Expr.bare := by
        rw [typeArgs_eq, List.map_map]
        exact List.map_congr_left inner
      rw [typeExpr, Expr.bare_of_erased (typeCall_erased ..).1, Expr.bare_call, Expr.bare_call,
        Expr.bare_erased, List.map_map, ← passed, target]
      simp only [Function.comp_def, Expr.bare_erased]
  | cast note kind operand inner =>
      rw [typeExpr, Typing.cast, Expr.bare_cast, Expr.bare_cast, inner]

/-! Statements, functions and items. -/

namespace Analysis

theorem coerceInit_bare (line : Nat) (declared : Ty) (init : Expr) :
    (coerceInit line declared init).node.bare = init.bare := by
  unfold coerceInit
  split
  · rfl
  · split
    · exact Expr.bare_of_erased (Expr.erased_coerce ..) |>.trans (Expr.bare_erased _)
    · rfl

theorem checkDeclaration_bare (line : Nat) (decl : Declaration) (a : Analysis) :
    (Stmt.declare line (checkDeclaration line decl a).1).bare = (Stmt.declare line decl).bare := by
  unfold checkDeclaration
  split
  · rfl
  · split
    · rfl
    · rename_i init provided
      simp only [Stmt.bare, provided, Option.map_some, coerceInit_bare]

theorem checkStmt_bare (s : Stmt) (a : Analysis) : (checkStmt s a).node.bare = s.bare := by
  cases s with
  | expr line value => exact congrArg (Stmt.expr line) (a.ledger.typeExpr_bare value)
  | enterIf line condition => exact congrArg (Stmt.enterIf line) (a.ledger.typeExpr_bare condition)
  | declare line decl =>
      rcases decl with ⟨name, ty, _ | init, id⟩
      · exact checkDeclaration_bare ..
      · refine (checkDeclaration_bare ..).trans ?_
        simp only [Stmt.bare, Option.map_some, Ledger.typeExpr_bare]
  | beginBlock | endBlock => exact congrArg Stmt.bare (crossing_node ..)
  | leaveIf line => rfl

theorem declareParams_bare (line : Nat) (params : List Param) (a : Analysis) :
    (declareParams line params a).1.map Param.bare = params.map Param.bare := by
  induction params generalizing a with
  | nil => rfl
  | cons param rest ih =>
      unfold declareParams
      split
      · rw [List.map_cons, List.map_cons, ih]
      · rw [List.map_cons, List.map_cons, ih]
        rfl

theorem checkFunction_bare (f : Function) (a : Analysis) :
    (checkFunction f a).node.bare = f.bare := by
  rcases f with ⟨name, returns, params, body, line, id⟩
  match body, id with
  | none, _ | some _, none => rfl
  | some body, some id =>
      have stmts := Visit.each_keeps checkStmt_bare body
      have filled : ∀ (ledger : Ledger) (after : Analysis),
          Function.bare ⟨name, returns, (declareParams line params ⟨ledger, a.diagnostics⟩).1,
            some (Visit.each checkStmt body after).node, line, some id⟩ =
          Function.bare ⟨name, returns, params, some body, line, some id⟩ := by
        intro ledger after
        simp only [Function.bare, declareParams_bare, Option.map_some, stmts]
      simp only [checkFunction, checkBody]
      split
      · rfl
      · split
        · exact filled ..
        · split <;> exact filled ..

theorem registerFunction_bare (f : Function) (a : Analysis) :
    (registerFunction f a).1.bare = f.bare := by
  unfold registerFunction
  dsimp only
  split <;> rfl

theorem registerItem_bare (item : Item) (a : Analysis) :
    (registerItem item a).node.bare = item.bare := by
  cases item with
  | stmt s => rfl
  | function f => exact congrArg Item.function (registerFunction_bare f a)

theorem checkItem_bare (item : Item) (a : Analysis) : (checkItem item a).node.bare = item.bare := by
  cases item with
  | function f => exact congrArg Item.function (checkFunction_bare f a)
  | stmt s => exact congrArg Item.stmt (checkStmt_bare s a)

theorem checkClosed_node (items : List Item) (a : Analysis) :
    (checkClosed items a).node = items := by
  unfold checkClosed
  split <;> rfl

end Analysis

namespace Program

/-- Whatever was filled in before and however the analysis ends, the bare form of the program
stays. -/
theorem analyze_keeps_bare (p : Program) (ledger : Ledger) :
    (p.analyze ledger).node.bare = p.bare := by
  have checked : ∀ items a, ((Visit.each Analysis.checkItem items a).andThen
      Analysis.checkClosed).node.map Item.bare = items.map Item.bare := by
    intro items a
    have closed : ∀ visit : Analysis.Checking (List Item),
        (visit.andThen Analysis.checkClosed).node.map Item.bare = visit.node.map Item.bare :=
      Visit.andThen_keeps fun items a =>
      congrArg (List.map Item.bare) (Analysis.checkClosed_node items a)
    exact (closed _).trans (Visit.each_keeps Analysis.checkItem_bare items a)
  have registered := Visit.each_keeps Analysis.registerItem_bare p.items ⟨ledger, #[]⟩
  exact congrArg Program.mk ((Visit.andThen_keeps checked _).trans registered)

/-- Taking away what analysis filled in gives back the program that was handed over, item by item
and in the same order, also when a fault stopped the analysis half way. -/
theorem analyze_fills_in (p : Program) (fresh : p.Fresh) (limit : Nat) :
    (p.analyze (.empty limit)).node.bare = p := by
  rw [analyze_keeps_bare, bare_fresh p fresh]

/-- A converted initializer, a block that is closed without having been opened, and a use behind
it. -/
def halted : Program :=
  ⟨[.stmt (.declare 1 ⟨"d", .double, some (.int ⟨1, none⟩ 1), none⟩),
    .stmt (.endBlock 2),
    .stmt (.expr 3 (.name ⟨3, none⟩ "d" none))]⟩

/-- The initializer has been converted when the analysis stops, and the use has not been looked
at. -/
theorem halted_fills_in :
    halted.Fresh ∧ (halted.analyze (.empty 1)).stopped = some .blockUnderflow ∧
      (halted.analyze (.empty 1)).node =
        ⟨[.stmt (.declare 1 ⟨"d", .double,
          some (.cast ⟨1, some .double⟩ .intToDouble (.int ⟨1, some .int⟩ 1)),
            some ⟨0⟩⟩),
          .stmt (.endBlock 2),
          .stmt (.expr 3 (.name ⟨3, none⟩ "d" none))]⟩ ∧
      (halted.analyze (.empty 1)).node.bare = halted := by
  have fresh : halted.Fresh := by decide
  exact ⟨fresh, rfl, rfl, analyze_fills_in halted fresh 1⟩

end Program
end StackCompiler
