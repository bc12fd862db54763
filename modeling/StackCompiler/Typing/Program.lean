import StackCompiler.Language.Program
import StackCompiler.Typing.Expr
import StackCompiler.Walk.Visit

/-!
Typing a program.

All functions are registered first, so a call may stand before the function it calls. Then the items
are taken in order; a function body is checked in a block of its own with the parameters declared at
its start. A mistake is reported and typing goes on. Only markers that do not pair up stop it, and
then too the tree and the ledger are left as they were at that moment.
-/
namespace StackCompiler

structure Analysis where
  ledger : Ledger
  diagnostics : Array Diagnostic

namespace Analysis

abbrev Checking (α : Type) := Visit Analysis Fault α

def report (a : Analysis) (diagnostics : List Diagnostic) : Analysis :=
  ⟨a.ledger, a.diagnostics ++ diagnostics⟩

def declare (a : Analysis) (name : String) (ty : Ty) (line : Nat) : Option VarId × Analysis :=
  let ⟨ledger, diagnostics⟩ := a
  match ledger.findVariableInBlock name with
  | some _ => (none, ⟨ledger, diagnostics.push ⟨line, .duplicate name⟩⟩)
  | none =>
      let (id, ledger) := ledger.addVariable ⟨name, ty, line⟩
      (some id, ⟨ledger, diagnostics⟩)

def coerceInit (line : Nat) (declared : Ty) (init : Expr) : Typed Expr :=
  match init.ty with
  | none => ⟨init, []⟩
  | some value =>
      match Coercion.into? value declared with
      | some coercion => ⟨init.coerce coercion, []⟩
      | none => ⟨init, [⟨line, .initializerType declared value⟩]⟩

/-- Registers a declaration whose initializer is already typed. A duplicate stays as it is. -/
def checkDeclaration (line : Nat) (decl : Declaration) (a : Analysis) : Declaration × Analysis :=
  match a.declare decl.name decl.ty line with
  | (none, a) => (decl, a)
  | (some id, a) =>
      match decl.init with
      | none => ({ decl with id := some id }, a)
      | some init =>
          let init := coerceInit line decl.ty init
          ({ decl with id := some id, init := some init.node }, a.report init.diagnostics)

def conditionDiagnostics (line : Nat) (condition : Expr) : List Diagnostic :=
  match condition.ty with
  | some .boolean | none => []
  | some found => [⟨line, .conditionType found⟩]

def crossing (s : Stmt) (a : Analysis) (step : Ledger → Except Fault Ledger) : Checking Stmt :=
  match step a.ledger with
  | .ok ledger => .done s ⟨ledger, a.diagnostics⟩
  | .error fault => .stop s a fault

def checkStmt (s : Stmt) (a : Analysis) : Checking Stmt :=
  match s with
  | .expr line value =>
      let value := a.ledger.typeExpr value
      .done (.expr line value.node) (a.report value.diagnostics)
  | .declare line decl =>
      match decl.init with
      | none =>
          let (decl, a) := checkDeclaration line decl a
          .done (.declare line decl) a
      | some init =>
          let init := a.ledger.typeExpr init
          let (decl, a) :=
            checkDeclaration line { decl with init := some init.node } (a.report init.diagnostics)
          .done (.declare line decl) a
  | .beginBlock _ => crossing s a Ledger.openBlock
  | .endBlock _ => crossing s a Ledger.closeBlock
  | .enterIf line condition =>
      let condition := a.ledger.typeExpr condition
      .done (.enterIf line condition.node)
        (a.report (condition.diagnostics ++ conditionDiagnostics line condition.node))
  | .leaveIf _ => .done s a

-- A parameter that repeats a name is reported at the function's line and keeps its old id.
def declareParams (line : Nat) : List Param → Analysis → List Param × Analysis
  | [], a => ([], a)
  | param :: rest, a =>
      match a.declare param.name param.ty line with
      | (none, a) =>
          let (rest, a) := declareParams line rest a
          (param :: rest, a)
      | (some id, a) =>
          let (rest, a) := declareParams line rest a
          ({ param with id := some id } :: rest, a)

def closeBody (outer : Nat) (ledger : Ledger) : Except Fault Ledger :=
  if outer + 1 < ledger.depth then .error (.unclosedBlocks (ledger.depth - outer - 1))
  else if ledger.depth < outer + 1 then .error .blockUnderflow
  else ledger.closeBlock

/-- Checks a body in its own block, with the parameters at its start. -/
def checkBody (f : Function) (body : List Stmt) (a : Analysis) : Checking Function :=
  let outer := a.ledger.depth
  match a.ledger.openBlock with
  | .error fault => .stop f a fault
  | .ok ledger =>
      let (params, a) := declareParams f.line f.params ⟨ledger, a.diagnostics⟩
      let visit := Visit.each checkStmt body a
      let checked := { f with params, body := some visit.node }
      match visit.stopped with
      | some fault => .stop checked visit.state fault
      | none =>
          match closeBody outer visit.state.ledger with
          | .error fault => .stop checked visit.state fault
          | .ok ledger => .done checked ⟨ledger, visit.state.diagnostics⟩

/-- A host function has nothing to check, nor has one without an id. -/
def checkFunction (f : Function) (a : Analysis) : Checking Function :=
  match f.body, f.id with
  | some body, some _ => checkBody f body a
  | _, _ => .done f a

/-- A function whose name the block already has is reported and keeps its old id. -/
def registerFunction (f : Function) (a : Analysis) : Function × Analysis :=
  let ⟨ledger, diagnostics⟩ := a
  match ledger.findFunctionInBlock f.name with
  | some _ => (f, ⟨ledger, diagnostics.push ⟨f.line, .duplicate f.name⟩⟩)
  | none =>
      let (id, ledger) := ledger.addFunction ⟨f.name, f.returns, f.paramTypes, f.line⟩
      ({ f with id := some id }, ⟨ledger, diagnostics⟩)

def registerItem (item : Item) (a : Analysis) : Checking Item :=
  match item with
  | .function f =>
      let (f, a) := registerFunction f a
      .done (.function f) a
  | .stmt s => .done (.stmt s) a

def checkItem (item : Item) (a : Analysis) : Checking Item :=
  match item with
  | .function f => (checkFunction f a).map Item.function
  | .stmt s => (checkStmt s a).map Item.stmt

def checkClosed (items : List Item) (a : Analysis) : Checking (List Item) :=
  if a.ledger.depth = 0 then .done items a else .stop items a (.unclosedBlocks a.ledger.depth)

end Analysis

def Program.analyze (p : Program) (ledger : Ledger) : Visit Analysis Fault Program :=
  ((Visit.each Analysis.registerItem p.items ⟨ledger, #[]⟩).andThen fun items a =>
    (Visit.each Analysis.checkItem items a).andThen Analysis.checkClosed).map Program.mk

end StackCompiler
