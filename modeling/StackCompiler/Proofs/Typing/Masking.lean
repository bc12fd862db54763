import Mathlib.Logic.Function.Basic
import StackCompiler.Proofs.Language.Masking
import StackCompiler.Proofs.Walk.Runs
import StackCompiler.Typing.Program

/-!
Typing does not look at what is masked.

A rule reads operators, types and bindings, and a name only to compare it with another one. So
typing a masked program against a masked ledger leaves the tree and the ledger of the program,
masked, with problems of the same classes in the same order, and it stops where typing the program
stops.
-/
namespace StackCompiler

/-- The classes of the problems, which tell neither lines nor names. -/
def classes (diagnostics : List Diagnostic) : List ProblemClass :=
  diagnostics.map fun d => d.problem.problemClass

@[simp] theorem classes_append (first second : List Diagnostic) :
    classes (first ++ second) = classes first ++ classes second :=
  List.map_append

theorem classes_isEmpty {diagnostics others : List Diagnostic}
    (same : classes diagnostics = classes others) :
    diagnostics.isEmpty = others.isEmpty := by
  have emptied : ∀ found : List Diagnostic, found.isEmpty = (classes found).isEmpty :=
    fun found => by
    cases found <;> rfl
  rw [emptied, emptied, same]

variable (rename : String → String)

def VariableEntry.masked (entry : VariableEntry) : VariableEntry :=
  ⟨rename entry.name, entry.ty, 1⟩

def FunctionEntry.masked (entry : FunctionEntry) : FunctionEntry :=
  ⟨rename entry.name, entry.returns, entry.params, 1⟩

namespace Ledger

def masked (ledger : Ledger) : Ledger :=
  ⟨ledger.vars.map (VariableEntry.masked rename),
    ledger.functions.map (FunctionEntry.masked rename),
    ledger.checkpoints, ledger.depth, ledger.limit⟩

section
variable {rename} (faithful : Function.Injective rename)
include faithful

theorem lookup_masked {α : Type} (history : Array α) (nameOf : α → String) (mask : α → α)
    (renamed : ∀ entry, nameOf (mask entry) = rename (nameOf entry)) (length : Checkpoint → Nat)
    (marks : List Checkpoint) (name : String) (start stop : Nat) :
    lookup (history.map mask) nameOf length marks (rename name) start stop =
      lookup history nameOf length marks name start stop := by
  -- Names are compared and nothing else, so a faithful renaming changes no answer.
  have same : ∀ entry, (nameOf (mask entry) == rename name) = (nameOf entry == name) :=
    fun entry => by
    rw [renamed, Bool.eq_iff_iff, beq_iff_eq, beq_iff_eq, faithful.eq_iff]
  simp only [lookup, Array.size_map, Array.getElem?_map, Option.any_map, same]

variable (ledger : Ledger) (name : String)

theorem findVariable_masked :
    (ledger.masked rename).findVariable (rename name) = ledger.findVariable name := by
  simp only [findVariable, masked, Array.size_map,
    lookup_masked faithful ledger.vars VariableEntry.name (VariableEntry.masked rename)
      fun _ => rfl]

theorem findFunction_masked :
    (ledger.masked rename).findFunction (rename name) = ledger.findFunction name := by
  simp only [findFunction, masked, Array.size_map,
    lookup_masked faithful ledger.functions FunctionEntry.name (FunctionEntry.masked rename)
      fun _ => rfl]

theorem findVariableInBlock_masked :
    (ledger.masked rename).findVariableInBlock (rename name) = ledger.findVariableInBlock name := by
  simp only [findVariableInBlock, masked, Array.size_map,
    lookup_masked faithful ledger.vars VariableEntry.name (VariableEntry.masked rename)
      fun _ => rfl]

theorem findFunctionInBlock_masked :
    (ledger.masked rename).findFunctionInBlock (rename name) = ledger.findFunctionInBlock name := by
  simp only [findFunctionInBlock, masked, Array.size_map,
    lookup_masked faithful ledger.functions FunctionEntry.name (FunctionEntry.masked rename)
      fun _ => rfl]

theorem resolve_masked : (ledger.masked rename).resolve (rename name) = ledger.resolve name := by
  rw [resolve, resolve, findVariable_masked faithful, findFunction_masked faithful]
  cases ledger.findVariable name with
  | some id => simp [variableAt?, masked, VariableEntry.masked, Function.comp_def]
  | none =>
      cases ledger.findFunction name with
      | some id => simp [functionAt?, masked, FunctionEntry.masked, Function.comp_def]
      | none => rfl

end

section
variable (ledger : Ledger)

theorem functionAt_masked (id : FunId) :
    (ledger.masked rename).functionAt? id =
      (ledger.functionAt? id).map (FunctionEntry.masked rename) := by
  simp [functionAt?, masked]

theorem addVariable_masked (entry : VariableEntry) :
    (ledger.masked rename).addVariable (entry.masked rename) =
      ((ledger.addVariable entry).1, (ledger.addVariable entry).2.masked rename) := by
  simp [addVariable, masked]

theorem addFunction_masked (entry : FunctionEntry) :
    (ledger.masked rename).addFunction (entry.masked rename) =
      ((ledger.addFunction entry).1, (ledger.addFunction entry).2.masked rename) := by
  simp [addFunction, masked]

theorem openBlock_masked :
    (ledger.masked rename).openBlock = ledger.openBlock.map (masked rename) := by
  by_cases full : ledger.limit ≤ ledger.depth <;>
    simp [openBlock, checkpoint, masked, full, Except.map]

theorem closeBlock_masked :
    (ledger.masked rename).closeBlock = ledger.closeBlock.map (masked rename) := by
  by_cases outermost : ledger.depth = 0 <;>
    simp [closeBlock, checkpoint, masked, outermost, Except.map]

end
end Ledger

/-! Rules. -/

structure Typed.Mirrors {α : Type} (mask : α → α) (veiled typed : Typed α) : Prop where
  node : veiled.node = mask typed.node
  problems : classes veiled.diagnostics = classes typed.diagnostics

namespace Typing
variable (line : Nat)

theorem binary_masked (op : BinaryOp) (left right : Expr) :
    (binary 1 op (left.masked rename) (right.masked rename)).Mirrors (Expr.masked rename)
      (binary line op left right) := by
  simp only [binary, Expr.masked_ty]
  split
  · split
    · exact ⟨by simp [Expr.masked, Note.masked], rfl⟩
    · exact ⟨rfl, rfl⟩
  · exact ⟨rfl, rfl⟩

theorem shapeProblem_masked (op : UnaryOp) (operand : Expr) :
    op.shapeProblem? (operand.masked rename) = op.shapeProblem? operand := by
  cases operand with
  | name note identifier binding => rcases binding with _ | _ | _ <;> rfl
  | _ => rfl

theorem unary_masked (op : UnaryOp) (operand : Expr) :
    (unary 1 op (operand.masked rename)).Mirrors (Expr.masked rename) (unary line op operand) := by
  simp only [unary, Expr.masked_ty, shapeProblem_masked]
  split
  · exact ⟨rfl, rfl⟩
  · exact ⟨rfl, rfl⟩
  · split
    · exact ⟨rfl, rfl⟩
    · exact ⟨rfl, rfl⟩

theorem assign_masked (op : AssignOp) (target value : Expr) :
    (assign 1 op (target.masked rename) (value.masked rename)).Mirrors (Expr.masked rename)
      (assign line op target value) := by
  cases target with
  | name note identifier binding =>
      rcases binding with _ | id | id
      · exact ⟨rfl, rfl⟩
      · simp only [assign, Expr.masked, Expr.masked_ty, Note.masked]
        split
        · split
          · exact ⟨rfl, rfl⟩
          · split
            · exact ⟨by simp [Expr.masked, Note.masked], rfl⟩
            · exact ⟨rfl, rfl⟩
        · exact ⟨rfl, rfl⟩
      · exact ⟨rfl, rfl⟩
  | _ => exact ⟨rfl, rfl⟩

theorem arguments_masked (callee : String) (position : Nat) (types : List Ty) (args : List Expr) :
    (arguments 1 (rename callee) position types (args.map (Expr.masked rename))).Mirrors
      (List.map (Expr.masked rename)) (arguments line callee position types args) := by
  induction types generalizing position args with
  | nil => exact ⟨rfl, rfl⟩
  | cons required types ih =>
      cases args with
      | nil => exact ⟨rfl, rfl⟩
      | cons arg args =>
          rcases ih (position + 1) args with ⟨node, problems⟩
          simp only [List.map_cons, arguments, Expr.masked_ty]
          split
          · exact ⟨by simp [node], problems⟩
          · split
            · exact ⟨by simp [node], problems⟩
            · exact ⟨by simp [node], congrArg (_ :: ·) problems⟩

theorem callOf_masked (callee : Expr) (args : List Expr) (name : String) (params : List Ty)
    (returns : Ty) :
    (callOf 1 (callee.masked rename) (args.map (Expr.masked rename)) (rename name) params
        returns).Mirrors (Expr.masked rename) (callOf line callee args name params returns) := by
  rcases arguments_masked rename line name 1 params args with ⟨node, problems⟩
  have typed : (args.map (Expr.masked rename)).all (·.ty.isSome) = args.all (·.ty.isSome) := by
    simp [List.all_map, Function.comp_def]
  simp only [callOf, List.length_map]
  split
  · exact ⟨by simp [Expr.masked, Note.masked], rfl⟩
  · exact ⟨by simp [Expr.masked, Note.masked, node, typed, classes_isEmpty problems], problems⟩

end Typing

section
variable {rename} (faithful : Function.Injective rename) (ledger : Ledger)

namespace Ledger

theorem typeName_masked (faithful : Function.Injective rename) (line : Nat) (name : String)
    (old : Option Binding) :
    ((ledger.masked rename).typeName 1 (rename name) old).Mirrors (Expr.masked rename)
      (ledger.typeName line name old) := by
  simp only [typeName, resolve_masked faithful]
  split
  · exact ⟨rfl, rfl⟩
  · exact ⟨rfl, rfl⟩

theorem typeCall_masked (line : Nat) (callee : Expr) (args : List Expr) :
    ((ledger.masked rename).typeCall 1 (callee.masked rename)
      (args.map (Expr.masked rename))).Mirrors
      (Expr.masked rename) (ledger.typeCall line callee args) := by
  cases callee with
  | name note identifier binding =>
      rcases binding with _ | id | id
      · exact ⟨by simp [typeCall, Expr.masked, Note.masked], rfl⟩
      · exact ⟨by simp [typeCall, Expr.masked, Note.masked], rfl⟩
      · simp only [typeCall, Expr.masked, functionAt_masked]
        cases ledger.functionAt? id with
        | none => exact ⟨by simp [Expr.masked, Note.masked], rfl⟩
        | some entry =>
            exact Typing.callOf_masked rename line
              (.name note identifier (some (.function id))) args ..
  | _ => exact ⟨by simp [typeCall, Expr.masked, Note.masked], rfl⟩

/-- An expression is typed without a look at its lines, its literals and the spelling of its
names. -/
theorem typeExpr_masked (faithful : Function.Injective rename) (e : Expr) :
    ((ledger.masked rename).typeExpr (e.masked rename)).Mirrors (Expr.masked rename)
      (ledger.typeExpr e) := by
  induction e with
  | bool | int | double => exact ⟨rfl, rfl⟩
  | name note identifier binding =>
      exact ledger.typeName_masked faithful note.line identifier binding
  | binary note op left right first second =>
      rcases Typing.binary_masked rename note.line op (ledger.typeExpr left).node
        (ledger.typeExpr right).node with
        ⟨node, problems⟩
      simp only [Expr.masked, Note.masked, typeExpr, first.node, second.node]
      exact ⟨node, by simp [first.problems, second.problems, problems]⟩
  | unary note op operand inner =>
      rcases Typing.unary_masked rename note.line op (ledger.typeExpr operand).node
        with ⟨node, problems⟩
      simp only [Expr.masked, Note.masked, typeExpr, inner.node]
      exact ⟨node, by simp [inner.problems, problems]⟩
  | assign note op target value first second =>
      rcases Typing.assign_masked rename note.line op (ledger.typeExpr target).node
        (ledger.typeExpr value).node with
        ⟨node, problems⟩
      simp only [Expr.masked, Note.masked, typeExpr, first.node, second.node]
      exact ⟨node, by simp [first.problems, second.problems, problems]⟩
  | call note callee args first inner =>
      have passed : ((ledger.masked rename).typeArgs (args.map (Expr.masked rename))).Mirrors
          (List.map (Expr.masked rename)) (ledger.typeArgs args) := by
        clear first
        induction args with
        | nil => exact ⟨rfl, rfl⟩
        | cons arg rest ih =>
            rcases List.forall_mem_cons.mp inner with ⟨here, others⟩
            rcases ih others with ⟨node, problems⟩
            exact ⟨by simp [typeArgs, here.node, node], by simp [typeArgs, here.problems, problems]⟩
      rcases ledger.typeCall_masked note.line (ledger.typeExpr callee).node
        (ledger.typeArgs args).node with ⟨node, problems⟩
      simp only [Expr.masked, Note.masked, Expr.maskedArgs_eq, typeExpr, first.node, passed.node]
      exact ⟨node, by simp [first.problems, passed.problems, problems]⟩
  | cast note kind operand inner =>
      simp only [Expr.masked, Note.masked, typeExpr, inner.node]
      exact ⟨by simp [Typing.cast, Expr.masked, Note.masked], inner.problems⟩

end Ledger

/-! Statements, functions and programs. -/

structure Analysis.Mirrors (rename : String → String) (veiled a : Analysis) : Prop where
  ledger : veiled.ledger = a.ledger.masked rename
  problems : classes veiled.diagnostics.toList = classes a.diagnostics.toList

def Visit.Mirrors {α : Type} (rename : String → String) (mask : α → α)
    (veiled visit : Analysis.Checking α) : Prop :=
  ∃ state, veiled = ⟨mask visit.node, state, visit.stopped⟩ ∧
    state.Mirrors rename visit.state

namespace Visit
variable {α β : Type} {mask : α → α}

theorem mirrors_map {veiled visit : Analysis.Checking α}
    (mirrors : veiled.Mirrors rename mask visit)
    {make other : α → β} {masked : β → β}
    (makes : ∀ node, other (mask node) = masked (make node)) :
    (veiled.map other).Mirrors rename masked (visit.map make) := by
  rcases mirrors with ⟨state, rfl, mirrored⟩
  exact ⟨state, by simp only [map, makes], mirrored⟩

theorem mirrors_andThen {veiled visit : Analysis.Checking α}
    (mirrors : veiled.Mirrors rename mask visit) {next : α → Analysis → Analysis.Checking α}
    (rest : ∀ node before a, before.Mirrors rename a →
      (next (mask node) before).Mirrors rename mask (next node a)) :
    (veiled.andThen next).Mirrors rename mask (visit.andThen next) := by
  rcases mirrors with ⟨state, rfl, mirrored⟩
  rcases visit with ⟨node, a, _ | fault⟩
  · exact rest node state a mirrored
  · exact ⟨state, rfl, mirrored⟩

theorem mirrors_each {check : α → Analysis → Analysis.Checking α}
    (one : ∀ member before a, before.Mirrors rename a →
      (check (mask member) before).Mirrors rename mask (check member a))
    (members : List α) {before a : Analysis} (mirrors : before.Mirrors rename a) :
    (each check (members.map mask) before).Mirrors rename (List.map mask)
      (each check members a) := by
  induction members generalizing before a with
  | nil => exact ⟨before, rfl, mirrors⟩
  | cons member rest ih =>
      rcases one member before a mirrors with ⟨state, first, mirrored⟩
      rw [List.map_cons, each_cons, each_cons, first]
      rcases visit : check member a with ⟨node, next, _ | fault⟩
      · rw [visit] at mirrored
        exact mirrors_map (ih mirrored) fun _ => rfl
      · rw [visit] at mirrored
        exact ⟨state, rfl, mirrored⟩

end Visit

namespace Analysis
variable {veiled a : Analysis}

theorem report_mirrors (mirrors : veiled.Mirrors rename a) {found others : List Diagnostic}
    (same : classes found = classes others) :
    (veiled.report found).Mirrors rename (a.report others) :=
  ⟨mirrors.ledger, by simp [report, mirrors.problems, same]⟩

theorem problem_mirrors {veiled ledger : Ledger} {found others : Array Diagnostic}
    (mirrors : Mirrors rename ⟨veiled, found⟩ ⟨ledger, others⟩) {place line : Nat}
    {problem other : Problem} (alike : problem.problemClass = other.problemClass) :
    Mirrors rename ⟨veiled, found.push ⟨place, problem⟩⟩ ⟨ledger, others.push ⟨line, other⟩⟩ :=
  ⟨mirrors.ledger, by simpa [classes, alike] using mirrors.problems⟩

theorem coerceInit_masked (rename : String → String) (line : Nat) (declared : Ty) (init : Expr) :
    (coerceInit 1 declared (init.masked rename)).Mirrors (Expr.masked rename)
      (coerceInit line declared init) := by
  simp only [coerceInit, Expr.masked_ty]
  split
  · exact ⟨rfl, rfl⟩
  · split
    · exact ⟨by simp, rfl⟩
    · exact ⟨rfl, rfl⟩

theorem crossing_mirrors (mirrors : veiled.Mirrors rename a) (s : Stmt)
    {step : Ledger → Except Fault Ledger}
    (commutes : step (a.ledger.masked rename) = (step a.ledger).map (Ledger.masked rename)) :
    (crossing (s.masked rename) veiled step).Mirrors rename (Stmt.masked rename)
      (crossing s a step) := by
  rw [crossing, crossing, mirrors.ledger, commutes]
  cases step a.ledger with
  | ok next => exact ⟨_, rfl, rfl, mirrors.problems⟩
  | error fault => exact ⟨_, rfl, mirrors⟩

section
variable (faithful : Function.Injective rename)
include faithful

theorem declare_mirrors (mirrors : veiled.Mirrors rename a) (name : String) (ty : Ty) (line : Nat) :
    ∃ after, veiled.declare (rename name) ty 1 = ((a.declare name ty line).1, after) ∧
      after.Mirrors rename (a.declare name ty line).2 := by
  have added := a.ledger.addVariable_masked rename ⟨name, ty, line⟩
  rw [VariableEntry.masked] at added
  simp only [declare, mirrors.ledger, Ledger.findVariableInBlock_masked faithful, added]
  split
  · exact ⟨_, rfl, problem_mirrors ⟨rfl, mirrors.problems⟩ rfl⟩
  · exact ⟨_, rfl, rfl, mirrors.problems⟩

theorem checkDeclaration_mirrors (mirrors : veiled.Mirrors rename a) (line : Nat)
    (decl : Declaration) :
    ∃ after, checkDeclaration 1 (decl.masked rename) veiled =
      ((checkDeclaration line decl a).1.masked rename, after) ∧
      after.Mirrors rename (checkDeclaration line decl a).2 := by
  rcases decl with ⟨name, ty, init, id⟩
  rcases declare_mirrors faithful mirrors name ty line with ⟨after, declared, state⟩
  simp only [checkDeclaration, Declaration.masked, declared]
  rcases here : a.declare name ty line with ⟨_ | own, next⟩
  · rw [here] at state
    exact ⟨after, rfl, state⟩
  · rw [here] at state
    cases init with
    | none => exact ⟨after, rfl, state⟩
    | some init =>
        have coerced := coerceInit_masked rename line ty init
        exact ⟨_, by simp only [Option.map_some,
          coerced.node], report_mirrors state coerced.problems⟩

theorem checkStmt_mirrors (s : Stmt) (veiled a : Analysis) (mirrors : veiled.Mirrors rename a) :
    (checkStmt (s.masked rename) veiled).Mirrors rename (Stmt.masked rename) (checkStmt s a) := by
  cases s with
  | expr line value =>
      rcases a.ledger.typeExpr_masked faithful value with ⟨node, problems⟩
      simp only [Stmt.masked, checkStmt, mirrors.ledger, node]
      exact ⟨_, rfl, report_mirrors mirrors problems⟩
  | declare line decl =>
      rcases decl with ⟨name, ty, _ | init, id⟩
      · rcases checkDeclaration_mirrors faithful mirrors line ⟨name, ty, none, id⟩
          with ⟨after, checked, state⟩
        simp only [Declaration.masked, Option.map_none] at checked
        refine ⟨after, ?_, state⟩
        simp only [checkStmt, Stmt.masked, Declaration.masked, Option.map_none, checked]
        rfl
      · rcases a.ledger.typeExpr_masked faithful init with ⟨node, problems⟩
        rcases checkDeclaration_mirrors faithful (report_mirrors mirrors problems) line
          ⟨name, ty, some (a.ledger.typeExpr init).node, id⟩ with ⟨after, checked, state⟩
        simp only [Declaration.masked, Option.map_some] at checked
        refine ⟨after, ?_, state⟩
        simp only [checkStmt, Stmt.masked, Declaration.masked, Option.map_some, mirrors.ledger,
          node, checked]
        rfl
  | beginBlock line =>
      exact crossing_mirrors mirrors (.beginBlock line) (a.ledger.openBlock_masked rename)
  | endBlock line =>
      exact crossing_mirrors mirrors (.endBlock line) (a.ledger.closeBlock_masked rename)
  | enterIf line condition =>
      rcases a.ledger.typeExpr_masked faithful condition with ⟨node, problems⟩
      have found :
          classes (conditionDiagnostics 1 ((a.ledger.typeExpr condition).node.masked rename)) =
            classes (conditionDiagnostics line (a.ledger.typeExpr condition).node) := by
        simp only [conditionDiagnostics, Expr.masked_ty]
        split <;> rfl
      simp only [Stmt.masked, checkStmt, mirrors.ledger, node]
      exact ⟨_, rfl, report_mirrors mirrors (by simp [problems, found])⟩
  | leaveIf line => exact ⟨_, rfl, mirrors⟩

theorem declareParams_mirrors (line : Nat) (params : List Param)
    (mirrors : veiled.Mirrors rename a) :
    ∃ after, declareParams 1 (params.map (Param.masked rename)) veiled =
        ((declareParams line params a).1.map (Param.masked rename), after) ∧
      after.Mirrors rename (declareParams line params a).2 := by
  induction params generalizing veiled a with
  | nil => exact ⟨veiled, rfl, mirrors⟩
  | cons param rest ih =>
      rcases declare_mirrors faithful mirrors param.name param.ty line with ⟨after, declared, state⟩
      simp only [List.map_cons, declareParams, Param.masked, declared]
      rcases here : a.declare param.name param.ty line with ⟨_ | own, next⟩
      · rw [here] at state
        rcases ih state with ⟨last, others, final⟩
        exact ⟨last, by simp only [others]; rfl, final⟩
      · rw [here] at state
        rcases ih state with ⟨last, others, final⟩
        exact ⟨last, by simp only [others]; rfl, final⟩

omit faithful in
theorem closeBody_masked (outer : Nat) (ledger : Ledger) :
    closeBody outer (ledger.masked rename) =
      (closeBody outer ledger).map (Ledger.masked rename) := by
  have depth : (ledger.masked rename).depth = ledger.depth := rfl
  simp only [closeBody, depth, Ledger.closeBlock_masked]
  split
  · rfl
  · split <;> rfl

theorem checkBody_mirrors (f : Function) (body : List Stmt) (mirrors : veiled.Mirrors rename a) :
    (checkBody (f.masked rename) (body.map (Stmt.masked rename)) veiled).Mirrors rename
      (Function.masked rename) (checkBody f body a) := by
  have depth : (a.ledger.masked rename).depth = a.ledger.depth := rfl
  simp only [checkBody, mirrors.ledger, depth, Ledger.openBlock_masked]
  cases a.ledger.openBlock with
  | error fault => exact ⟨veiled, rfl, mirrors⟩
  | ok opened =>
      have start :
        Mirrors rename ⟨opened.masked rename, veiled.diagnostics⟩ ⟨opened, a.diagnostics⟩ :=
        ⟨rfl, mirrors.problems⟩
      rcases declareParams_mirrors faithful f.line f.params start with ⟨after, params, declared⟩
      rcases Visit.mirrors_each (checkStmt_mirrors faithful) body declared
        with ⟨last, visited, final⟩
      simp only [Except.map, Function.masked, params, visited]
      rcases here :
        Visit.each checkStmt body (declareParams f.line f.params ⟨opened, a.diagnostics⟩).2 with
        ⟨node, reached, _ | fault⟩
      · rw [here] at final
        simp only [final.ledger, closeBody_masked]
        cases closeBody a.ledger.depth reached.ledger with
        | ok closed => exact ⟨_, rfl, rfl, final.problems⟩
        | error fault => exact ⟨last, rfl, final⟩
      · rw [here] at final
        exact ⟨last, rfl, final⟩

theorem registerItem_mirrors (item : Item) (veiled a : Analysis)
    (mirrors : veiled.Mirrors rename a) :
    (registerItem (item.masked rename) veiled).Mirrors rename (Item.masked rename)
      (registerItem item a) := by
  cases item with
  | stmt s => exact ⟨veiled, rfl, mirrors⟩
  | function f =>
      have added := a.ledger.addFunction_masked rename ⟨f.name, f.returns, f.paramTypes, f.line⟩
      have types : (f.masked rename).paramTypes = f.paramTypes := f.masked_paramTypes rename
      rw [FunctionEntry.masked] at added
      simp only [Item.masked, registerItem, registerFunction, types]
      simp only [Function.masked, mirrors.ledger, Ledger.findFunctionInBlock_masked faithful, added]
      split
      · exact ⟨_, rfl, problem_mirrors ⟨rfl, mirrors.problems⟩ rfl⟩
      · exact ⟨_, rfl, rfl, mirrors.problems⟩

theorem checkItem_mirrors (item : Item) (veiled a : Analysis) (mirrors : veiled.Mirrors rename a) :
    (checkItem (item.masked rename) veiled).Mirrors rename (Item.masked rename)
      (checkItem item a) := by
  cases item with
  | stmt s => exact Visit.mirrors_map (checkStmt_mirrors faithful s veiled a mirrors) fun _ => rfl
  | function f =>
      refine Visit.mirrors_map ?_ fun _ => rfl
      rcases f with ⟨name, returns, params, _ | body, line, _ | id⟩
      · exact ⟨veiled, rfl, mirrors⟩
      · exact ⟨veiled, rfl, mirrors⟩
      · exact ⟨veiled, rfl, mirrors⟩
      · exact checkBody_mirrors faithful ⟨name, returns, params, some body, line, some id⟩
          body mirrors

end

theorem checkClosed_mirrors (items : List Item) (mirrors : veiled.Mirrors rename a) :
    (checkClosed (items.map (Item.masked rename)) veiled).Mirrors rename
      (List.map (Item.masked rename)) (checkClosed items a) := by
  have depth : (a.ledger.masked rename).depth = a.ledger.depth := rfl
  simp only [checkClosed, mirrors.ledger, depth]
  split
  · exact ⟨veiled, rfl, mirrors⟩
  · exact ⟨veiled, rfl, mirrors⟩

end Analysis

/-- Analysis of a masked program leaves the masked tree and ledger and problems of the same
classes. -/
theorem Program.analyze_masked (faithful : Function.Injective rename) (p : Program) (limit : Nat) :
    ((p.masked rename).analyze (.empty limit)).Mirrors rename (Program.masked rename)
      (p.analyze (.empty limit)) := by
  have start : Analysis.Mirrors rename ⟨.empty limit, #[]⟩ ⟨.empty limit, #[]⟩ :=
    ⟨by simp [Ledger.empty, Ledger.masked], rfl⟩
  have registered := Visit.mirrors_each (Analysis.registerItem_mirrors faithful) p.items start
  refine Visit.mirrors_map (Visit.mirrors_andThen registered fun items before a state => ?_)
    fun _ => rfl
  have checked := Visit.mirrors_each (Analysis.checkItem_mirrors faithful) items state
  exact Visit.mirrors_andThen checked fun items _ _ reached =>
    Analysis.checkClosed_mirrors items reached

end
end StackCompiler
