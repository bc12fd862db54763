import StackCompiler.Proofs.Scope.Innermost
import StackCompiler.Proofs.Typing.Elaboration
import StackCompiler.Proofs.Typing.Variables

/-!
Declarations, ids and entries correspond.

A declaration, a parameter of a function that is looked into and a function all come with an entry
for a history of the ledger. Either the entry is accepted, and the node gets its place in the
history as an id, or it is refused, and a duplicate is reported. So the ids of a tree tell the
histories of the ledger, and the missing ones the duplicates in the report. Of declarations in one
block only the first of a name is accepted, and of functions the first in the program.
-/
namespace StackCompiler

def Diagnostic.duplicate? (d : Diagnostic) : Option (Nat × String) :=
  match d.problem with
  | .duplicate name => some (d.line, name)
  | _ => none

def duplicates (diagnostics : List Diagnostic) : List (Nat × String) :=
  diagnostics.filterMap Diagnostic.duplicate?

@[simp] theorem duplicates_append (first second : List Diagnostic) :
    duplicates (first ++ second) = duplicates first ++ duplicates second :=
  List.filterMap_append ..

/-! An expression declares nothing, so typing it reports no duplicate. -/

namespace Typing
variable (line : Nat)

theorem binary_duplicates (op : BinaryOp) (left right : Expr) :
    duplicates (binary line op left right).diagnostics = [] := by
  unfold binary
  split
  · split <;> rfl
  · rfl

theorem unary_duplicates (op : UnaryOp) (operand : Expr) :
    duplicates (unary line op operand).diagnostics = [] := by
  unfold unary
  split
  · rename_i problem found
    unfold UnaryOp.shapeProblem? at found
    split at found
    · split at found <;> cases found <;> rfl
    · cases found
  · rfl
  · split <;> rfl

theorem assign_duplicates (op : AssignOp) (target value : Expr) :
    duplicates (assign line op target value).diagnostics = [] := by
  unfold assign
  split
  · split
    · split
      · rfl
      · split <;> rfl
    · rfl
  · rfl
  · rfl

theorem arguments_duplicates (callee : String) (position : Nat) (types : List Ty)
    (args : List Expr) :
    duplicates (arguments line callee position types args).diagnostics = [] := by
  induction types generalizing position args with
  | nil => rfl
  | cons required types ih =>
      cases args with
      | nil => rfl
      | cons arg args =>
          unfold arguments
          split
          · exact ih (position + 1) args
          · split
            · exact ih (position + 1) args
            · exact ih (position + 1) args

theorem callOf_duplicates (callee : Expr) (args : List Expr) (name : String) (params : List Ty)
    (returns : Ty) :
    duplicates (callOf line callee args name params returns).diagnostics = [] := by
  unfold callOf
  split
  · rfl
  · exact arguments_duplicates ..

end Typing

namespace Ledger
variable (ledger : Ledger)

theorem typeName_duplicates (line : Nat) (name : String) (old : Option Binding) :
    duplicates (ledger.typeName line name old).diagnostics = [] := by
  unfold typeName
  split <;> rfl

theorem typeCall_duplicates (line : Nat) (callee : Expr) (args : List Expr) :
    duplicates (ledger.typeCall line callee args).diagnostics = [] := by
  unfold typeCall
  split
  · split
    · exact Typing.callOf_duplicates ..
    · rfl
  · rfl
  · rfl
  · rfl

theorem typeExpr_duplicates (e : Expr) : duplicates (ledger.typeExpr e).diagnostics = [] := by
  induction e with
  | bool | int | double => rfl
  | name note identifier binding => exact ledger.typeName_duplicates ..
  | binary note op left right first second =>
      simp only [typeExpr, duplicates_append, first, second, Typing.binary_duplicates,
        List.append_nil]
  | unary note op operand inner =>
      simp only [typeExpr, duplicates_append, inner, Typing.unary_duplicates, List.append_nil]
  | assign note op target value first second =>
      simp only [typeExpr, duplicates_append, first, second, Typing.assign_duplicates,
        List.append_nil]
  | call note callee args target inner =>
      have passed : duplicates (ledger.typeArgs args).diagnostics = [] := by
        rw [typeArgs_eq, duplicates, List.filterMap_flatMap, List.flatMap_eq_nil_iff]
        exact inner
      simp only [typeExpr, duplicates_append, passed, target, typeCall_duplicates, List.append_nil]
  | cast note kind operand inner => exact inner

end Ledger

/-- What is declared somewhere: the entry for the history, and its place there if it was
accepted. -/
structure Site (α : Type) where
  entry : α
  place : Option Nat
deriving DecidableEq, Repr

namespace Site
variable {α : Type}

def accepted? (site : Site α) : Option (α × Nat) := site.place.map (site.entry, ·)

def refused? (site : Site α) : Option α := if site.place.isNone then some site.entry else none

end Site

def VariableEntry.label (entry : VariableEntry) : Nat × String := (entry.line, entry.name)

def FunctionEntry.label (entry : FunctionEntry) : Nat × String := (entry.line, entry.name)

def Stmt.sites : Stmt → List (Site VariableEntry)
  | declare line decl => [⟨⟨decl.name, decl.ty, line⟩, decl.id.map VarId.index⟩]
  | expr .. | beginBlock _ | endBlock _ | enterIf .. | leaveIf _ => []

/-- A parameter is declared at the line of its function. -/
def Param.site (line : Nat) (param : Param) : Site VariableEntry :=
  ⟨param.variable line, param.id.map VarId.index⟩

namespace Function

def site (f : Function) : Site FunctionEntry := ⟨f.entry, f.id.map FunId.index⟩

def sites (f : Function) : List (Site VariableEntry) :=
  f.params.map (Param.site f.line) ++ f.stmts.flatMap Stmt.sites

/-- Only a function with a body and an id is looked into. -/
def visited (f : Function) : Bool := f.body.isSome && f.id.isSome

end Function

namespace Item

def functionSites : Item → List (Site FunctionEntry)
  | function f => [f.site]
  | stmt _ => []

def sites : Item → List (Site VariableEntry)
  | function f => f.sites
  | stmt s => s.sites

def visitedSites : Item → List (Site VariableEntry)
  | function f => if f.visited then f.sites else []
  | stmt s => s.sites

end Item

namespace Program

def functionSites (p : Program) : List (Site FunctionEntry) := p.functions.map Function.site

theorem functionSites_items (p : Program) :
    p.items.flatMap Item.functionSites = p.functionSites := by
  rcases p with ⟨items⟩
  induction items with
  | nil => rfl
  | cons item rest ih =>
      cases item with
      | stmt s => exact ih
      | function f => exact congrArg (f.site :: ·) ih

def sites (p : Program) : List (Site VariableEntry) := p.items.flatMap Item.sites

/-- Those among them that analysis visits. -/
def visitedSites (p : Program) : List (Site VariableEntry) := p.items.flatMap Item.visitedSites

end Program

/-- What a step does to one history and to the report: the accepted entries are added at their
places, and the refused ones are reported. -/
structure Enters {α : Type} (history : Ledger → Array α) (label : α → Nat × String)
    (before after : Analysis) (sites : List (Site α)) : Prop where
  entries : (history after.ledger).toList.zipIdx =
    (history before.ledger).toList.zipIdx ++ sites.filterMap Site.accepted?
  reports : duplicates after.diagnostics.toList =
    duplicates before.diagnostics.toList ++ (sites.filterMap Site.refused?).map label

namespace Enters
variable {α : Type} {history : Ledger → Array α} {label : α → Nat × String}
    {before middle after : Analysis}
  {first second : List (Site α)}

theorem nothing (kept : history after.ledger = history before.ledger)
    (quiet : duplicates after.diagnostics.toList = duplicates before.diagnostics.toList) :
    Enters history label before after [] :=
  ⟨by rw [kept]; exact (List.append_nil _).symm, by rw [quiet]; exact (List.append_nil _).symm⟩

theorem trans (early : Enters history label before middle first)
    (late : Enters history label middle after second) :
    Enters history label before after (first ++ second) where
  entries := by rw [late.entries, early.entries, List.filterMap_append, List.append_assoc]
  reports := by
    rw [late.reports, early.reports, List.filterMap_append, List.map_append, List.append_assoc]

theorem accepted {entry : α} (pushed : history after.ledger = (history before.ledger).push entry)
    (quiet : duplicates after.diagnostics.toList = duplicates before.diagnostics.toList) :
    Enters history label before after [⟨entry, some (history before.ledger).size⟩] where
  entries := by
    rw [pushed, Array.toList_push, List.zipIdx_append]
    simp [Site.accepted?]
  reports := by rw [quiet]; exact (List.append_nil _).symm

theorem refused {entry : α} (kept : history after.ledger = history before.ledger)
    (reported : duplicates after.diagnostics.toList =
      duplicates before.diagnostics.toList ++ [label entry]) :
    Enters history label before after [⟨entry, none⟩] where
  entries := by rw [kept]; exact (List.append_nil _).symm
  reports := reported

theorem each {β : Type} {check : β → Analysis → Analysis.Checking β}
    {sites : β → List (Site α)} {members : List β}
    (one : ∀ member ∈ members, ∀ a, (check member a).stopped = none →
      Enters history label a (check member a).state (sites (check member a).node))
    {a : Analysis} (ran : (Visit.each check members a).stopped = none) :
    Enters history label a (Visit.each check members a).state
      ((Visit.each check members a).node.flatMap sites) := by
  induction members generalizing a with
  | nil => exact nothing rfl rfl
  | cons member rest ih =>
      rcases List.forall_mem_cons.mp one with ⟨own, others⟩
      rcases Visit.each_ran ran with ⟨first, ended, visit⟩
      rw [visit]
      exact (own a first).trans (ih others ended)

end Enters

namespace Analysis
variable {a : Analysis} {named : List Named} {v : Visible}

theorem report_duplicates (a : Analysis) (found : List Diagnostic) (quiet : duplicates found = []) :
    duplicates (a.report found).diagnostics.toList = duplicates a.diagnostics.toList := by
  simp [report, quiet]

abbrev Declares (before after : Analysis) (sites : List (Site VariableEntry)) : Prop :=
  Enters Ledger.vars VariableEntry.label before after sites

theorem declare_declares (a : Analysis) (name : String) (ty : Ty) (line : Nat) :
    Declares a (a.declare name ty line).2
      [⟨⟨name, ty, line⟩, (a.declare name ty line).1.map VarId.index⟩] := by
  rcases a with ⟨ledger, diagnostics⟩
  cases found : ledger.findVariableInBlock name with
  | some known =>
      have step : Analysis.declare ⟨ledger, diagnostics⟩ name ty line =
          (none, ⟨ledger, diagnostics.push ⟨line, .duplicate name⟩⟩) := by
            simp only [declare, found]
      rw [step]
      exact Enters.refused rfl (by simp [duplicates, Diagnostic.duplicate?, VariableEntry.label])
  | none =>
      have step : Analysis.declare ⟨ledger, diagnostics⟩ name ty line =
          (some ⟨ledger.vars.size⟩, ⟨(ledger.addVariable ⟨name, ty, line⟩).2, diagnostics⟩) := by
        simp only [declare, found]
        rfl
      rw [step]
      exact Enters.accepted rfl rfl

theorem coerceInit_duplicates (line : Nat) (declared : Ty) (init : Expr) :
    duplicates (coerceInit line declared init).diagnostics = [] := by
  unfold coerceInit
  split
  · rfl
  · split <;> rfl

theorem checkDeclaration_declares (line : Nat) (decl : Declaration) (undeclared : decl.id = none)
    (a : Analysis) :
    Declares a (checkDeclaration line decl a).2
      (Stmt.declare line (checkDeclaration line decl a).1).sites := by
  rcases decl with ⟨name, ty, init, id⟩
  cases undeclared
  have entered := a.declare_declares name ty line
  unfold checkDeclaration
  split
  · rename_i next declared
    rw [declared] at entered
    exact entered
  · rename_i id next declared
    rw [declared] at entered
    cases init with
    | none => exact entered
    | some init =>
        have quiet := report_duplicates next _ (coerceInit_duplicates line ty init)
        exact entered.trans (Enters.nothing rfl quiet)

theorem condition_duplicates (line : Nat) (condition : Expr) :
    duplicates (conditionDiagnostics line condition) = [] := by
  unfold conditionDiagnostics
  split <;> rfl

theorem crossing_declares {s : Stmt} {step : Ledger → Except Fault Ledger}
    (keeps : ∀ next, step a.ledger = .ok next → next.vars = a.ledger.vars) :
    Declares a (crossing s a step).state [] := by
  unfold crossing
  cases stepped : step a.ledger with
  | error fault => exact Enters.nothing rfl rfl
  | ok next => exact Enters.nothing (keeps next stepped) rfl

theorem checkStmt_declares (s : Stmt) (fresh : s.Fresh) (a : Analysis) :
    Declares a (checkStmt s a).state (checkStmt s a).node.sites := by
  cases s with
  | expr line value =>
      exact Enters.nothing rfl (report_duplicates a _ (a.ledger.typeExpr_duplicates value))
  | enterIf line condition =>
      refine Enters.nothing rfl (report_duplicates a _ ?_)
      rw [duplicates_append, a.ledger.typeExpr_duplicates, condition_duplicates, List.append_nil]
  | leaveIf line => exact Enters.nothing rfl rfl
  | beginBlock line =>
      have node : (checkStmt (.beginBlock line) a).node = .beginBlock line := crossing_node ..
      rw [node]
      exact crossing_declares fun next opens => (Ledger.openBlock_marks opens).1
  | endBlock line =>
      have node : (checkStmt (.endBlock line) a).node = .endBlock line := crossing_node ..
      rw [node]
      exact crossing_declares fun next closes => (Ledger.closeBlock_marks closes).1
  | declare line decl =>
      rcases decl with ⟨name, ty, _ | init, id⟩
      · exact checkDeclaration_declares line ⟨name, ty, none, id⟩ fresh.1 a
      · have typed : Declares a (a.report (a.ledger.typeExpr init).diagnostics) [] :=
          Enters.nothing rfl (report_duplicates a _ (a.ledger.typeExpr_duplicates init))
        exact typed.trans (checkDeclaration_declares line
          ⟨name, ty, some (a.ledger.typeExpr init).node, id⟩ fresh.1 _)

theorem declareParams_declares (line : Nat) (params : List Param)
    (undeclared : ∀ param ∈ params, param.id = none) (a : Analysis) :
    Declares a (declareParams line params a).2
      ((declareParams line params a).1.map (Param.site line)) := by
  induction params generalizing a with
  | nil => exact Enters.nothing rfl rfl
  | cons param rest ih =>
      rcases List.forall_mem_cons.mp undeclared with ⟨own, others⟩
      have first := a.declare_declares param.name param.ty line
      rw [declareParams_cons]
      rw [← Option.or_none (o := (a.declare param.name param.ty line).1), ← own] at first
      exact first.trans (ih others _)

theorem checkBody_declares (f : Function) (body : List Stmt) (fresh : f.FreshInside)
    (provided : f.body = some body)
    (registered : f.id.isSome) (ran : (checkBody f body a).stopped = none) :
    Declares a (checkBody f body a).state
      (Item.function (checkBody f body a).node).visitedSites := by
  rcases checkBody_ran ran with ⟨ledger, next, opens, stopped, closes, visit⟩
  have entered := declareParams_declares f.line f.params fresh.1 ⟨ledger, a.diagnostics⟩
  have stmts :=
    Enters.each (fun s member a _ =>
      checkStmt_declares s (fresh.2 body provided s member) a) stopped
  have opened : Declares a ⟨ledger, a.diagnostics⟩ [] :=
    Enters.nothing (Ledger.openBlock_marks opens).1 rfl
  have closed : Declares _ ⟨next, _⟩ [] :=
    Enters.nothing (Ledger.closeBlock_marks (closeBody_ok closes)).1 rfl
  have whole := ((opened.trans entered).trans stmts).trans closed
  rw [List.nil_append, List.append_nil] at whole
  rw [visit]
  simp only [Visit.done, Item.visitedSites, Function.visited, registered, Option.isSome_some,
    Bool.and_self, if_true]
  exact whole

theorem checkItem_declares (item : Item) (fresh : Unchecked item)
    (ran : (checkItem item a).stopped = none) :
    Declares a (checkItem item a).state (checkItem item a).node.visitedSites := by
  cases item with
  | stmt s => exact checkStmt_declares s fresh a
  | function f =>
      rcases f with ⟨name, returns, params, _ | body, line, _ | id⟩
      · exact Enters.nothing rfl rfl
      · exact Enters.nothing rfl rfl
      · exact Enters.nothing rfl rfl
      · exact checkBody_declares _ body fresh rfl rfl ran

theorem registerFunction_enters (f : Function) (unregistered : f.id = none) (a : Analysis) :
    Enters Ledger.functions FunctionEntry.label a (registerFunction f a).2
      [(registerFunction f a).1.site] := by
  rcases a with ⟨ledger, diagnostics⟩
  cases found : ledger.findFunctionInBlock f.name with
  | some known =>
      have step : registerFunction f ⟨ledger, diagnostics⟩ =
          (f, ⟨ledger, diagnostics.push ⟨f.line, .duplicate f.name⟩⟩) := by
            simp only [registerFunction, found]
      rw [step, Function.site, unregistered]
      exact Enters.refused rfl (by simp [duplicates, Diagnostic.duplicate?, FunctionEntry.label,
        Function.entry])
  | none =>
      have step : registerFunction f ⟨ledger, diagnostics⟩ =
          ({ f with id := some ⟨ledger.functions.size⟩ },
            ⟨(ledger.addFunction f.entry).2, diagnostics⟩) := by
        simp only [registerFunction, found]
        rfl
      rw [step]
      exact Enters.accepted rfl rfl

theorem registerItem_enters (item : Item) (fresh : item.Fresh) (a : Analysis) :
    Enters Ledger.functions FunctionEntry.label a (registerItem item a).state
      (registerItem item a).node.functionSites := by
  cases item with
  | stmt s => exact Enters.nothing rfl rfl
  | function f => exact registerFunction_enters f fresh.1 a

/-! Variables of one block stay apart. -/

theorem declare_placed (reads : a.ledger.Reads named v) (placed : a.ledger.Placed v)
    (name : String) (ty : Ty) (line : Nat) :
    (a.declare name ty line).2.ledger.Placed (v.declare name).2 := by
  rcases a with ⟨ledger, diagnostics⟩
  have found := reads.findVariableInBlock_eq name
  unfold declare Visible.declare
  cases known : latestOf name v.inner with
  | some index =>
      rw [known] at found
      simp only [found, Option.map_some, Option.isSome_some, if_true]
      exact placed
  | none =>
      rw [known] at found
      simp only [found, Option.map_none, Option.isSome_none, Bool.false_eq_true, if_false]
      exact Ledger.addVariable_placed reads placed known

theorem checkDeclaration_placed (reads : a.ledger.Reads named v) (placed : a.ledger.Placed v)
    (line : Nat) (decl : Declaration) :
    (checkDeclaration line decl a).2.ledger.Placed (v.declare decl.name).2 := by
  have after := declare_placed reads placed decl.name decl.ty line
  unfold checkDeclaration
  split
  · rename_i next declared
    rw [declared] at after
    exact after
  · rename_i id next declared
    rw [declared] at after
    split <;> exact after

theorem checkStmt_placed (functionOf : String → Option FunId) (s : Stmt)
    (reads : a.ledger.Reads named v)
    (placed : a.ledger.Placed v) (ran : (checkStmt s a).stopped = none) :
    (checkStmt s a).state.ledger.Placed (s.resolve functionOf v).scope := by
  cases s with
  | expr | enterIf | leaveIf => exact placed
  | declare line decl =>
      rcases decl with ⟨name, ty, _ | init, id⟩
      · exact checkDeclaration_placed reads placed line ⟨name, ty, none, id⟩
      · have read : (a.report (a.ledger.typeExpr init).diagnostics).ledger.Reads named v := reads
        exact checkDeclaration_placed read placed line
          ⟨name, ty, some (a.ledger.typeExpr init).node, id⟩
  | beginBlock line =>
      unfold checkStmt crossing at ran ⊢
      cases opens : a.ledger.openBlock with
      | error fault => simp [opens, Visit.stop] at ran
      | ok next => exact Ledger.openBlock_placed placed opens
  | endBlock line =>
      unfold checkStmt crossing at ran ⊢
      cases closes : a.ledger.closeBlock with
      | error fault => simp [closes, Visit.stop] at ran
      | ok next => exact Ledger.closeBlock_placed placed reads.depth closes

theorem declareParams_placed (reads : a.ledger.Reads named v) (placed : a.ledger.Placed v)
    (line : Nat) (params : List Param) :
    (declareParams line params a).2.ledger.Placed (resolveParams params v).2 := by
  induction params generalizing a v with
  | nil => exact placed
  | cons param rest ih =>
      rw [declareParams_cons]
      exact ih (declare_resolves reads param.name param.ty line).2.1
        (declare_placed reads placed ..)

theorem each_placed {α : Type} {check : α → Analysis → Checking α}
    {resolve : α → Visible → Resolved α} {erase : α → α} (members : List α)
    (one : ∀ member ∈ members, ∀ (a : Analysis) (v : Visible), a.ledger.Reads named v →
      Resolves (check member a) named erase a (resolve member v))
    (place : ∀ member ∈ members, ∀ (a : Analysis) (v : Visible), a.ledger.Reads named v →
      a.ledger.Placed v →
      (check member a).stopped = none →
        (check member a).state.ledger.Placed (resolve member v).scope)
    (reads : a.ledger.Reads named v) (placed : a.ledger.Placed v)
    (ran : (Visit.each check members a).stopped = none) :
    (Visit.each check members a).state.ledger.Placed (resolveEach resolve members v).scope := by
  induction members generalizing a v with
  | nil => exact placed
  | cons member rest ih =>
      rcases List.forall_mem_cons.mp one with ⟨own, others⟩
      rcases List.forall_mem_cons.mp place with ⟨here, later⟩
      rcases Visit.each_ran ran with ⟨first, ended, visit⟩
      rw [visit]
      exact ih others later (own a v reads first).2.2 (here a v reads placed first) ended

theorem checkBody_placed (f : Function) (body : List Stmt) (fresh : f.FreshInside)
    (provided : f.body = some body)
    (reads : a.ledger.Reads named v) (placed : a.ledger.Placed v)
    (ran : (checkBody f body a).stopped = none) :
    (checkBody f body a).state.ledger.Placed (resolveEach (Stmt.resolve (functionIn named)) body
      (resolveParams f.params v.opened).2).scope.closed := by
  rcases checkBody_ran ran with ⟨ledger, next, opens, stopped, closes, visit⟩
  have read : (Analysis.mk ledger a.diagnostics).ledger.Reads named v.opened :=
    reads.openBlock opens
  have opened : (Analysis.mk ledger a.diagnostics).ledger.Placed v.opened :=
    Ledger.openBlock_placed placed opens
  have inside := (declareParams_resolves f.line f.params fresh.1 read).2.2
  have resolves : ∀ s ∈ body, ∀ (a : Analysis) (v : Visible), a.ledger.Reads named v →
      Resolves (checkStmt s a) named Stmt.erased a (s.resolve (functionIn named) v) :=
    fun s member a v reads => checkStmt_resolves s (fresh.2 body provided s member) reads
  have after := (each_resolves body resolves inside stopped).2.2
  have stands := each_placed body resolves
    (fun s _ a v reads placed => checkStmt_placed (functionIn named) s reads placed) inside
    (declareParams_placed read opened f.line f.params) stopped
  rw [visit]
  exact Ledger.closeBlock_placed stands after.depth (closeBody_ok closes)

theorem checkItem_placed (item : Item) (fresh : Unchecked item) (reads : a.ledger.Reads named v)
    (placed : a.ledger.Placed v) (ran : (checkItem item a).stopped = none) :
    (checkItem item a).state.ledger.Placed (item.resolve (functionIn named) v).scope := by
  cases item with
  | stmt s => exact checkStmt_placed (functionIn named) s reads placed ran
  | function f =>
      rcases f with ⟨name, returns, params, _ | body, line, _ | id⟩
      · exact placed
      · exact placed
      · exact placed
      · exact checkBody_placed _ body fresh rfl reads placed ran

/-! Registration, and what is not looked into behind it. -/

theorem registerItem_kept (item : Item) (a : Analysis) :
    (registerItem item a).state.ledger.vars = a.ledger.vars ∧
      (registerItem item a).state.ledger.checkpoints = a.ledger.checkpoints := by
  -- Registration looks at functions only.
  cases item with
  | stmt s => exact ⟨rfl, rfl⟩
  | function f =>
      simp only [registerItem, registerFunction, Visit.done]
      split <;> exact ⟨rfl, rfl⟩

theorem register_kept (items : List Item) (a : Analysis) :
    (Visit.each registerItem items a).state.ledger.vars = a.ledger.vars ∧
      (Visit.each registerItem items a).state.ledger.checkpoints = a.ledger.checkpoints := by
  induction items generalizing a with
  | nil => exact ⟨rfl, rfl⟩
  | cons item rest ih =>
      have first := registerItem_kept item a
      rw [Visit.each_cons]
      rcases registered : registerItem item a with ⟨node, next, _ | fault⟩
      · rw [registered] at first
        exact ⟨(ih next).1.trans first.1, (ih next).2.trans first.2⟩
      · rw [registered] at first
        exact first

/-- Of the functions of one name only the first is numbered. -/
theorem numbered_names (items : List Item) (fresh : ∀ item ∈ items, item.Fresh)
    (seen : List String) :
    (((Program.functions ⟨numbered seen items⟩).filter (·.id.isSome)).map
      Function.name).Nodup ∧
      ∀ f ∈ Program.functions ⟨numbered seen items⟩, f.id.isSome → f.name ∉ seen := by
  induction items generalizing seen with
  | nil => exact ⟨List.nodup_nil, List.forall_mem_nil _⟩
  | cons item rest ih =>
      rcases List.forall_mem_cons.mp fresh with ⟨own, others⟩
      cases item with
      | stmt s => exact ih others seen
      | function f =>
          rw [numbered]
          by_cases again : f.name ∈ seen
          · rw [if_pos again]
            rcases ih others seen with ⟨distinct, new⟩
            have unnumbered : f.id = none := own.1
            have all : Program.functions ⟨.function f :: numbered seen rest⟩ =
                f :: Program.functions ⟨numbered seen rest⟩ := rfl
            rw [all, List.filter_cons_of_neg (by simp [unnumbered])]
            exact ⟨distinct, List.forall_mem_cons.mpr ⟨by simp [unnumbered], new⟩⟩
          · rw [if_neg again]
            rcases ih others (f.name :: seen) with ⟨distinct, new⟩
            have all :
              Program.functions ⟨.function { f
                with id := some ⟨seen.length⟩ } :: numbered (f.name :: seen) rest⟩ =
                { f with id := some ⟨seen.length⟩ } ::
                Program.functions ⟨numbered (f.name :: seen) rest⟩ := rfl
            rw [all, List.filter_cons_of_pos rfl, List.map_cons]
            refine ⟨List.nodup_cons.mpr ⟨fun among => ?_, distinct⟩,
              List.forall_mem_cons.mpr ⟨fun _ => again, ?_⟩⟩
            · rcases List.mem_map.mp among with ⟨g, member, same⟩
              rcases List.mem_filter.mp member with ⟨inside, registered⟩
              exact new g inside registered (by rw [same]; exact List.mem_cons_self)
            · exact fun g inside registered known =>
                new g inside registered (List.mem_cons_of_mem _ known)

theorem fresh_sites {f : Function} (fresh : f.FreshInside) :
    ∀ site ∈ f.sites, site.place = none := by
  have stmts : ∀ s : Stmt, s.Fresh → ∀ site ∈ s.sites, site.place = none := by
    intro s fresh
    cases s with
    | declare line decl =>
        exact List.forall_mem_singleton.mpr (congrArg (Option.map VarId.index) fresh.1)
    | _ => exact List.forall_mem_nil _
  refine List.forall_mem_append.mpr ⟨List.forall_mem_map.mpr fun param member => ?_, ?_⟩
  · exact congrArg (Option.map VarId.index) (fresh.1 param member)
  · intro site member
    rcases List.mem_flatMap.mp member with ⟨s, inside, own⟩
    rcases f with ⟨name, returns, params, _ | body, line, id⟩
    · cases inside
    · exact stmts s (fresh.2 body rfl s inside) site own

theorem checkItem_skipped {item : Item} (fresh : Unchecked item) {f : Function}
    (left : (checkItem item a).node = .function f) (ran : (checkItem item a).stopped = none)
    (skipped : f.visited = false) : ∀ site ∈ f.sites, site.place = none := by
  cases item with
  | stmt s => cases left
  | function g =>
      rcases g with ⟨name, returns, params, _ | body, line, _ | id⟩
      · cases left
        exact fresh_sites fresh
      · cases left
        exact fresh_sites fresh
      · cases left
        exact fresh_sites fresh
      · cases left
        rcases checkBody_ran ran with ⟨_, _, _, _, _, visit⟩
        have node :
            (checkFunction ⟨name, returns, params, some body, line, some id⟩ a).node = _ :=
          congrArg Visit.node visit
        rw [node] at skipped
        cases skipped

end Analysis

/-- The declarations of a program against the ledger and the report that an analysis leaves. -/
structure Program.Tallies (p : Program) (after : Analysis) : Prop where
  /-- The ids of the variables in the tree are, in order, the places of the history, which has their
  entries. -/
  vars : p.sites.filterMap Site.accepted? = after.ledger.vars.toList.zipIdx
  /-- Inside of a host function or of one without an id nothing has an id. -/
  skipped : ∀ f ∈ p.functions, f.visited = false → ∀ site ∈ f.sites, site.place = none
  /-- So it is with the ids of the functions. -/
  functions : p.functionSites.filterMap Site.accepted? = after.ledger.functions.toList.zipIdx
  /-- What has no id was reported as a duplicate, and nothing else was: first the functions, then
  the visited declarations and parameters. -/
  reports : duplicates after.diagnostics.toList =
    (p.functionSites.filterMap Site.refused?).map FunctionEntry.label ++
      (p.visitedSites.filterMap Site.refused?).map VariableEntry.label
  /-- No two functions share a name. -/
  names : (after.ledger.functions.toList.map FunctionEntry.name).Nodup
  /-- Nor do two variables of one block. -/
  apart : after.ledger.Apart

namespace Program

/-- Where what was not looked into has no ids, the ids of the tree are those of the visited
declarations. -/
theorem sites_accepted {p : Program}
    (skipped : ∀ f ∈ p.functions, f.visited = false → ∀ site ∈ f.sites, site.place = none) :
    p.sites.filterMap Site.accepted? = p.visitedSites.filterMap Site.accepted? := by
  rw [sites, visitedSites, List.filterMap_flatMap, List.filterMap_flatMap, List.flatMap_def,
    List.flatMap_def]
  refine congrArg List.flatten (List.map_congr_left fun item member => ?_)
  cases item with
  | stmt s => rfl
  | function f =>
      rw [Item.visitedSites]
      cases visited : f.visited with
      | true => rfl
      | false =>
          refine List.filterMap_eq_nil_iff.mpr fun site inside => ?_
          rw [Site.accepted?, skipped f (mem_functions.mpr member) visited site inside]
          rfl

theorem functionSites_of_signatures {p q : Program}
    (same : Analysis.signatures p.items = Analysis.signatures q.items) :
    p.functionSites = q.functionSites := by
  have sites (p : Program) : p.functionSites = (Analysis.signatures p.items).map
      fun signature => ⟨signature.2, signature.1.map FunId.index⟩ := by
    rw [Analysis.signatures, List.map_map]
    rfl
  rw [sites, sites, same]

/-- The names of the functions that have an id are the names in their accepted entries. -/
theorem functionSites_names (p : Program) :
    (p.functionSites.filterMap Site.accepted?).map (fun accepted => accepted.1.name) =
      (p.functions.filter (·.id.isSome)).map Function.name := by
  rw [functionSites]
  induction p.functions with
  | nil => rfl
  | cons f rest ih =>
      rcases f with ⟨name, returns, params, body, line, _ | id⟩
      · exact ih
      · exact congrArg (name :: ·) ih

theorem names_listed (entries : List FunctionEntry) :
    entries.map FunctionEntry.name = entries.zipIdx.map fun accepted => accepted.1.name := by
  have mapped := congrArg (List.map FunctionEntry.name) (List.zipIdx_map_fst 0 entries)
  rw [List.map_map] at mapped
  exact mapped.symm

/-- What the first pass leaves beside the registered program. -/
def registration (p : Program) (limit : Nat) : Analysis :=
  (Visit.each Analysis.registerItem p.items ⟨.empty limit, #[]⟩).state

section
variable {p : Program} (fresh : p.Fresh) (limit : Nat)
include fresh

theorem registration_enters :
    Enters Ledger.functions FunctionEntry.label ⟨.empty limit, #[]⟩ (p.registration limit)
      p.registered.functionSites := by
  have empty : (Analysis.mk (.empty limit) #[]).ledger.Reads [] .start := reads_empty limit
  rcases Analysis.register_numbers p.items fresh empty rfl with ⟨ran, nodes, _⟩
  have registers :=
    Enters.each (fun item member a _ => Analysis.registerItem_enters item (fresh item member) a) ran
  rw [nodes] at registers
  rw [← p.registered.functionSites_items]
  exact registers

theorem registration_start : ∃ named, (p.registration limit).ledger.Reads named .start ∧
    (p.registration limit).ledger.Placed .start ∧ (p.registration limit).ledger.vars = #[] := by
  have empty : (Analysis.mk (.empty limit) #[]).ledger.Reads [] .start := reads_empty limit
  rcases Analysis.register_numbers p.items fresh empty rfl with ⟨_, _, _, named, reads, _⟩
  have kept := Analysis.register_kept p.items ⟨.empty limit, #[]⟩
  exact ⟨named, reads, Ledger.placed_kept (Ledger.placed_start limit) kept.1 kept.2, kept.1⟩

variable {limit} (ended : (p.analyze (.empty limit)).stopped = none)
include ended

theorem analyze_second :
    (Visit.each Analysis.checkItem p.registered.items (p.registration limit)).stopped = none ∧
      p.analyze (.empty limit) =
      .done ⟨(Visit.each Analysis.checkItem p.registered.items (p.registration limit)).node⟩
        (Visit.each Analysis.checkItem p.registered.items (p.registration limit)).state := by
  have empty : (Analysis.mk (.empty limit) #[]).ledger.Reads [] .start := reads_empty limit
  rcases Analysis.register_numbers p.items fresh empty rfl with ⟨_, nodes, _⟩
  rcases analyze_ran ended with ⟨checked, _, visit⟩
  rw [nodes] at checked visit
  exact ⟨checked, visit⟩

theorem analyze_functionSites :
    (p.analyze (.empty limit)).node.functionSites = p.registered.functionSites := by
  rcases analyze_second fresh ended with ⟨checked, visit⟩
  rw [visit]
  exact functionSites_of_signatures (Analysis.each_signatures _ checked)

theorem analyze_functions : p.registered.functionSites.filterMap Site.accepted? =
    (p.analyze (.empty limit)).state.ledger.functions.toList.zipIdx := by
  -- The second pass adds no function.
  rcases analyze_second fresh ended with ⟨_, visit⟩
  have grown :=
    Analysis.each_extends Analysis.checkItem_extends p.registered.items (p.registration limit)
  have entries := (registration_enters fresh limit).entries
  rw [← grown.functions] at entries
  rw [visit]
  exact entries.symm

theorem analyze_declares : Analysis.Declares (p.registration limit) (p.analyze (.empty limit)).state
    (p.analyze (.empty limit)).node.visitedSites := by
  rcases analyze_second fresh ended with ⟨checked, visit⟩
  have unchecked := Analysis.numbered_unchecked [] p.items fresh
  rw [visit]
  exact Enters.each (fun item member a ran =>
    Analysis.checkItem_declares item (unchecked item member) ran) checked

theorem analyze_skips : ∀ f ∈ (p.analyze (.empty limit)).node.functions, f.visited = false →
    ∀ site ∈ f.sites, site.place = none := by
  rcases analyze_second fresh ended with ⟨checked, visit⟩
  intro f member skip
  have inside := mem_functions.mp member
  rw [visit] at inside
  rcases Visit.each_left checked inside with ⟨item, among, before, stepped, left⟩
  exact Analysis.checkItem_skipped (Analysis.numbered_unchecked [] p.items fresh item among) left
    stepped skip

theorem analyze_apart : (p.analyze (.empty limit)).state.ledger.Apart := by
  rcases analyze_second fresh ended with ⟨checked, visit⟩
  rcases registration_start fresh limit with ⟨named, reads, placed, _⟩
  have unchecked := Analysis.numbered_unchecked [] p.items fresh
  have stands := Analysis.each_placed p.registered.items
    (fun item member a v reads => Analysis.checkItem_resolves item (unchecked item member) reads)
    (fun item member a v reads placed ran =>
      Analysis.checkItem_placed item (unchecked item member) reads placed ran)
    reads placed checked
  rw [visit]
  exact stands.apart

end

/-- In a fresh program that is analysed to its end, the ids of declarations, parameters and
functions tell the histories of the ledger, and the missing ones the reported duplicates. -/
theorem analyze_tallies (p : Program) (fresh : p.Fresh) (limit : Nat)
    (ended : (p.analyze (.empty limit)).stopped = none) :
    (p.analyze (.empty limit)).node.Tallies (p.analyze (.empty limit)).state := by
  have functions := analyze_functions fresh ended
  have declares := analyze_declares fresh ended
  constructor
  case skipped => exact analyze_skips fresh ended
  case vars =>
    rcases registration_start fresh limit with ⟨_, _, _, none⟩
    have entries := declares.entries
    rw [none] at entries
    rw [sites_accepted (analyze_skips fresh ended)]
    exact entries.symm
  case functions => rw [analyze_functionSites fresh ended, functions]
  case reports =>
    rw [analyze_functionSites fresh ended, declares.reports,
      (registration_enters fresh limit).reports]
    rfl
  case names =>
    rw [names_listed, ← functions, functionSites_names]
    exact (Analysis.numbered_names p.items fresh []).1
  case apart => exact analyze_apart fresh ended

/-- The name `x` in nested, closed and neighbouring blocks, and twice in one; a parameter and a
function declared again, the latter with a body that is not looked into. -/
def crowded : Program :=
  ⟨[.stmt (.declare 1 ⟨"x", .int, none, none⟩),
    .function ⟨"f", .int, [⟨"a", .int, none⟩, ⟨"a", .double, none⟩],
      some [.declare 3 ⟨"a", .int, none, none⟩, .beginBlock 4,
        .declare 4 ⟨"a", .boolean, none, none⟩, .endBlock 4,
        .declare 5 ⟨"x", .int, none, none⟩], 2, none⟩,
    .stmt (.beginBlock 6), .stmt (.declare 6 ⟨"x", .double, none, none⟩), .stmt (.endBlock 6),
    .function ⟨"f", .double, [], some [.declare 8 ⟨"y", .int, none, none⟩], 7, none⟩,
    .stmt (.beginBlock 9), .stmt (.declare 9 ⟨"x", .int, none, none⟩), .stmt (.endBlock 9),
    .stmt (.declare 10 ⟨"x", .int, none, none⟩)]⟩

theorem crowded_tallies :
    crowded.Fresh ∧ (crowded.analyze (.empty 2)).stopped = none ∧
      (crowded.analyze (.empty 2)).node.Tallies (crowded.analyze (.empty 2)).state ∧
      (crowded.analyze (.empty 2)).state.ledger.vars.toList.map VariableEntry.label =
        [(1, "x"), (2, "a"), (4, "a"), (5, "x"), (6, "x"), (9, "x")] ∧
      duplicates (crowded.analyze (.empty 2)).state.diagnostics.toList =
        [(7, "f"), (2, "a"), (3, "a"), (10, "x")] :=
  have fresh : crowded.Fresh := by decide
  have ended : (crowded.analyze (.empty 2)).stopped = none := rfl
  ⟨fresh, ended, crowded.analyze_tallies fresh 2 ended, rfl, rfl⟩

end Program
end StackCompiler
