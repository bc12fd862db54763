import StackCompiler.Proofs.Scope.Resolution
import StackCompiler.Proofs.Typing.Names
import StackCompiler.Proofs.Walk.Runs
import StackCompiler.Typing.Program

/-!
Name resolution is lexical scoping.

`Reads` relates the ledger to the variables in scope. Every step of the analysis keeps the two
related, binds the names of the part it visits as lexical scoping says and reports the same uses.
Functions all stand in the outermost block, which is why a lookup finds the first function of a name
from everywhere.
-/
namespace StackCompiler

/-- The ledger says of variables what the scope says, and all its functions are those in `named`. -/
structure Ledger.Reads (ledger : Ledger) (named : List Named) (v : Visible) : Prop where
  vars :
    Ledger.Holds ledger.vars VariableEntry.name Checkpoint.vars ledger.checkpoints v.inner v.outer
  count : ledger.vars.size = v.count
  depth : ledger.depth = v.outer.length
  functions : ∃ inner outer, inner :: outer = List.replicate v.outer.length [] ++ [named] ∧
    Ledger.Holds ledger.functions FunctionEntry.name Checkpoint.functions ledger.checkpoints
      inner outer

def functionIn (named : List Named) (name : String) : Option FunId :=
  (latestOf name named).map FunId.mk

namespace Ledger.Reads
variable {ledger next : Ledger} {named : List Named} {v : Visible} (reads : ledger.Reads named v)
include reads

theorem findVariable_eq (name : String) : ledger.findVariable name = v.find name := by
  rw [findVariable, lookup_all reads.vars, Visible.find]

theorem findVariableInBlock_eq (name : String) :
    ledger.findVariableInBlock name = (latestOf name v.inner).map VarId.mk := by
  rw [findVariableInBlock, lookup_inner reads.vars]

theorem findFunction_eq (name : String) : ledger.findFunction name = functionIn named name := by
  obtain ⟨inner, outer, frames, held⟩ := reads.functions
  rw [findFunction, lookup_all held, frames, List.findSome?_append]
  -- Of the open blocks only the outermost declares functions.
  have none : (List.replicate v.outer.length []).findSome? (latestOf name) = none := by
    rw [List.findSome?_eq_none_iff]
    intro entries member
    rw [List.eq_of_mem_replicate member]
    rfl
  rw [none]
  simp [functionIn]

theorem meaning_eq : ledger.meaning = v.meaning (functionIn named) := by
  funext name
  unfold meaning resolve Visible.meaning
  rw [reads.findVariable_eq, reads.findFunction_eq]
  cases v.find name with
  | some id => rfl
  | none => cases functionIn named name <;> rfl

theorem addVariable (entry : VariableEntry) :
    (ledger.addVariable entry).2.Reads named
      ⟨⟨entry.name, v.count⟩ :: v.inner, v.outer, v.count + 1⟩ := by
  obtain ⟨vars, count, depth, functions⟩ := reads
  refine ⟨?_, ?_, depth, functions⟩
  · have pushed := holds_push vars entry
    rw [count] at pushed
    exact pushed
  · exact (Array.size_push _).trans (congrArg (· + 1) count)

theorem openBlock (opens : ledger.openBlock = .ok next) : next.Reads named v.opened := by
  unfold Ledger.openBlock at opens
  split at opens
  · cases opens
  · cases opens
    obtain ⟨vars, count, depth, inner, outer, frames, held⟩ := reads
    refine ⟨holds_open vars _ rfl rfl, count, congrArg (· + 1) depth, [], inner :: outer, ?_,
      holds_open held _ rfl rfl⟩
    rw [frames]
    rfl

theorem closeBlock (closes : ledger.closeBlock = .ok next) : next.Reads named v.closed := by
  obtain ⟨entries, around, total⟩ := v
  obtain ⟨vars, count, depth, inner, outer, frames, held⟩ := reads
  unfold Ledger.closeBlock at closes
  split at closes
  · cases closes
  · rename_i opened
    cases closes
    cases around with
    | nil => exact absurd depth opened
    | cons block around =>
        cases outer with
        | nil => simp [List.replicate_succ] at frames
        | cons second outer =>
            have tail : second :: outer = List.replicate around.length [] ++ [named] := by
              simpa [List.replicate_succ] using (List.cons.inj frames).2
            refine ⟨holds_close vars _ rfl rfl, count, ?_, second, outer, tail,
              holds_close held _ rfl rfl⟩
            exact congrArg (· - 1) depth

end Ledger.Reads

/-- What a step of the analysis owes: unless it stopped, the part it left is the resolved one
without its types, it reported the unknown uses, and the ledger reads as the scope behind it. -/
def Resolves {α β : Type} (visit : Analysis.Checking α) (named : List Named) (erase : α → β)
    (before : Analysis) (r : Resolved β) : Prop :=
  visit.stopped = none →
    erase visit.node = r.node ∧
    unknowns visit.state.diagnostics.toList = unknowns before.diagnostics.toList ++ r.unknown ∧
    visit.state.ledger.Reads named r.scope

namespace Analysis
variable {a : Analysis} {named : List Named} {v : Visible}

theorem declare_resolves (reads : a.ledger.Reads named v) (name : String) (ty : Ty) (line : Nat) :
    (a.declare name ty line).1 = (v.declare name).1 ∧
      (a.declare name ty line).2.ledger.Reads named (v.declare name).2 ∧
      unknowns (a.declare name ty line).2.diagnostics.toList = unknowns a.diagnostics.toList := by
  obtain ⟨ledger, diagnostics⟩ := a
  have found := reads.findVariableInBlock_eq name
  unfold declare Visible.declare
  cases known : latestOf name v.inner with
  | some index =>
      rw [known] at found
      simp [found, unknowns, Diagnostic.unknown?]
      exact reads
  | none =>
      rw [known] at found
      simp [found, unknowns]
      refine ⟨?_, reads.addVariable ⟨name, ty, line⟩⟩
      exact congrArg VarId.mk reads.count

@[simp] theorem report_unknowns (a : Analysis) (found : List Diagnostic) :
    unknowns (a.report found).diagnostics.toList =
      unknowns a.diagnostics.toList ++ unknowns found := by
  simp [report]

theorem coerceInit_erased (line : Nat) (declared : Ty) (init : Expr) :
    (coerceInit line declared init).node.erased = init.erased ∧
      unknowns (coerceInit line declared init).diagnostics = [] := by
  unfold coerceInit
  split
  · exact ⟨rfl, rfl⟩
  · split
    · exact ⟨Expr.erased_coerce .., rfl⟩
    · exact ⟨rfl, rfl⟩

theorem checkDeclaration_resolves (reads : a.ledger.Reads named v) (line : Nat) (decl : Declaration)
    (undeclared : decl.id = none) :
    (Stmt.declare line (checkDeclaration line decl a).1).erased =
        .declare line ⟨decl.name, decl.ty, decl.init.map Expr.erased, (v.declare decl.name).1⟩ ∧
      unknowns (checkDeclaration line decl a).2.diagnostics.toList =
      unknowns a.diagnostics.toList ∧
      (checkDeclaration line decl a).2.ledger.Reads named (v.declare decl.name).2 := by
  obtain ⟨name, ty, init, id⟩ := decl
  cases undeclared
  obtain ⟨known, after, reports⟩ := declare_resolves reads name ty line
  unfold checkDeclaration
  split
  · rename_i next declared
    rw [declared] at known after reports
    exact ⟨by rw [← known]; rfl, reports, after⟩
  · rename_i found next declared
    rw [declared] at known after reports
    cases init with
    | none => exact ⟨by rw [← known]; rfl, reports, after⟩
    | some init =>
        obtain ⟨node, none⟩ := coerceInit_erased line ty init
        refine ⟨?_, ?_, after⟩
        · rw [← known]
          simp only [Stmt.erased, Option.map_some, node]
        · rw [report_unknowns, none, reports, List.append_nil]

theorem checkStmt_resolves (s : Stmt) (fresh : s.Fresh) (reads : a.ledger.Reads named v) :
    Resolves (checkStmt s a) named Stmt.erased a (s.resolve (functionIn named) v) := by
  intro ran
  have meaning := reads.meaning_eq
  cases s with
  | expr line value =>
      obtain ⟨node, reports⟩ := a.ledger.typeExpr_binds value fresh
      rw [meaning] at node reports
      refine ⟨congrArg (Stmt.expr line) node, ?_, reads⟩
      exact (report_unknowns ..).trans (by rw [reports]; rfl)
  | enterIf line condition =>
      obtain ⟨node, reports⟩ := a.ledger.typeExpr_binds condition fresh
      rw [meaning] at node reports
      have typed :
          unknowns (conditionDiagnostics line (a.ledger.typeExpr condition).node) = [] := by
        unfold conditionDiagnostics
        split <;> rfl
      refine ⟨congrArg (Stmt.enterIf line) node, ?_, reads⟩
      refine (report_unknowns ..).trans ?_
      rw [unknowns_append, reports, typed, List.append_nil]
      rfl
  | leaveIf line => exact ⟨rfl, by simp [checkStmt, Visit.done, Stmt.resolve], reads⟩
  | beginBlock line =>
      unfold checkStmt crossing at ran ⊢
      cases opens : a.ledger.openBlock with
      | error fault => simp [opens, Visit.stop] at ran
      | ok next => exact ⟨rfl, by simp [Visit.done, Stmt.resolve], reads.openBlock opens⟩
  | endBlock line =>
      unfold checkStmt crossing at ran ⊢
      cases closes : a.ledger.closeBlock with
      | error fault => simp [closes, Visit.stop] at ran
      | ok next => exact ⟨rfl, by simp [Visit.done, Stmt.resolve], reads.closeBlock closes⟩
  | declare line decl =>
      obtain ⟨name, ty, init, id⟩ := decl
      obtain ⟨undeclared, inits⟩ := fresh
      cases init with
      | none =>
          obtain ⟨node, reports, after⟩ :=
            checkDeclaration_resolves reads line ⟨name, ty, none, id⟩ undeclared
          rw [← List.append_nil (unknowns a.diagnostics.toList)] at reports
          exact ⟨node, reports, after⟩
      | some init =>
          obtain ⟨typed, unbound⟩ := a.ledger.typeExpr_binds init (inits init rfl)
          rw [meaning] at typed unbound
          have read : (a.report (a.ledger.typeExpr init).diagnostics).ledger.Reads named v := reads
          obtain ⟨node, reports, after⟩ :=
            checkDeclaration_resolves read line
              ⟨name, ty, some (a.ledger.typeExpr init).node, id⟩ undeclared
          refine ⟨node.trans ?_, reports.trans ?_, after⟩
          · simp only [Option.map_some, typed]
            rfl
          · rw [report_unknowns, unbound]
            rfl

theorem declareParams_cons (line : Nat) (param : Param) (rest : List Param) (a : Analysis) :
    declareParams line (param :: rest) a =
      let declared := a.declare param.name param.ty line
      let others := declareParams line rest declared.2
      ({ param with id := declared.1.or param.id } :: others.1, others.2) := by
  rw [declareParams]
  split
  · rename_i declared
    simp [declared]
  · rename_i declared
    simp [declared]

theorem declareParams_resolves (line : Nat) (params : List Param)
    (undeclared : ∀ param ∈ params, param.id = none) (reads : a.ledger.Reads named v) :
    (declareParams line params a).1 = (resolveParams params v).1 ∧
      unknowns (declareParams line params a).2.diagnostics.toList =
      unknowns a.diagnostics.toList ∧
      (declareParams line params a).2.ledger.Reads named (resolveParams params v).2 := by
  induction params generalizing a v with
  | nil => exact ⟨rfl, rfl, reads⟩
  | cons param rest ih =>
      obtain ⟨known, after, reports⟩ := declare_resolves reads param.name param.ty line
      obtain ⟨nodes, restReports, final⟩ :=
        ih (fun other member => undeclared other (List.mem_cons_of_mem _ member)) after
      rw [declareParams_cons]
      refine ⟨?_, restReports.trans reports, final⟩
      simp only [nodes, known, undeclared param List.mem_cons_self, Option.or_none]
      rfl

theorem each_resolves {α : Type} {check : α → Analysis → Checking α}
    {resolve : α → Visible → Resolved α} {erase : α → α} (members : List α)
    (one : ∀ member ∈ members, ∀ (a : Analysis) (v : Visible), a.ledger.Reads named v →
      Resolves (check member a) named erase a (resolve member v))
    (reads : a.ledger.Reads named v) :
    Resolves (Visit.each check members a) named (List.map erase) a
      (resolveEach resolve members v) := by
  induction members generalizing a v with
  | nil => exact fun _ => ⟨rfl, by simp [Visit.done, resolveEach], reads⟩
  | cons member rest ih =>
      intro ran
      obtain ⟨first, others, visit⟩ := Visit.each_ran ran
      obtain ⟨node, reports, after⟩ := one member List.mem_cons_self a v reads first
      obtain ⟨nodes, restReports, final⟩ :=
        ih (fun other inside => one other (List.mem_cons_of_mem _ inside)) after others
      rw [visit]
      refine ⟨?_, ?_, final⟩
      · simp only [Visit.map, List.map_cons, node, nodes]
        rfl
      · simp only [Visit.map, restReports, reports, List.append_assoc]
        rfl

theorem closeBody_ok {outer : Nat} {ledger next : Ledger}
    (closes : closeBody outer ledger = .ok next) :
    ledger.closeBlock = .ok next := by
  unfold closeBody at closes
  split at closes
  · cases closes
  · split at closes
    · cases closes
    · exact closes

theorem checkBody_ran {f : Function} {body : List Stmt}
    (ran : (checkBody f body a).stopped = none) :
    ∃ ledger next, a.ledger.openBlock = .ok ledger ∧
      let entered := declareParams f.line f.params ⟨ledger, a.diagnostics⟩
      let visit := Visit.each checkStmt body entered.2
      visit.stopped = none ∧ closeBody a.ledger.depth visit.state.ledger = .ok next ∧
        checkBody f body a = .done { f with params := entered.1, body := some visit.node }
          ⟨next, visit.state.diagnostics⟩ := by
  unfold checkBody at ran ⊢
  cases opens : a.ledger.openBlock with
  | error fault => simp [opens, Visit.stop] at ran
  | ok ledger =>
      simp only [opens] at ran
      cases stopped : (Visit.each checkStmt body
          (declareParams f.line f.params ⟨ledger, a.diagnostics⟩).2).stopped with
      | some fault => simp [stopped, Visit.stop] at ran
      | none =>
          simp only [stopped] at ran
          cases closes : closeBody a.ledger.depth (Visit.each checkStmt body
              (declareParams f.line f.params ⟨ledger, a.diagnostics⟩).2).state.ledger with
          | error fault => simp [closes, Visit.stop] at ran
          | ok next =>
              exact ⟨ledger, next, rfl, stopped, closes, by simp only [stopped, closes]⟩

theorem checkBody_resolves (f : Function) (body : List Stmt) (fresh : f.FreshInside)
    (provided : f.body = some body) (reads : a.ledger.Reads named v) :
    Resolves (checkBody f body a) named Function.erased a
      (let params := resolveParams f.params v.opened
       let body := resolveEach (Stmt.resolve (functionIn named)) body params.2
       ⟨{ f with params := params.1, body := some body.node }, body.unknown,
         body.scope.closed⟩) := by
  intro ran
  rcases checkBody_ran ran with ⟨ledger, next, opens, stopped, closes, visit⟩
  have read : (Analysis.mk ledger a.diagnostics).ledger.Reads named v.opened :=
    reads.openBlock opens
  -- The parameters are in the block of the body, and the statements see them.
  rcases declareParams_resolves f.line f.params fresh.1 read with ⟨params, paramReports, inside⟩
  rcases each_resolves body
    (fun s member a v reads => checkStmt_resolves s (fresh.2 body provided s member) reads) inside
    stopped with
    ⟨nodes, reports, after⟩
  rw [visit]
  refine ⟨?_, ?_, after.closeBlock (closeBody_ok closes)⟩
  · simp only [Visit.done, Function.erased, Option.map_some, nodes, params]
  · exact reports.trans (by rw [paramReports])

theorem checkFunction_resolves (f : Function) (fresh : f.FreshInside)
    (reads : a.ledger.Reads named v) :
    Resolves (checkFunction f a) named Function.erased a (f.resolve (functionIn named) v) := by
  have skipped : Resolves (.done f a) named Function.erased a ⟨f, [], v⟩ :=
    fun _ => ⟨f.erased_fresh fresh, by simp [Visit.done], reads⟩
  obtain ⟨name, returns, params, body, line, id⟩ := f
  rcases body with _ | body
  · exact skipped
  rcases id with _ | id
  · exact skipped
  · exact checkBody_resolves _ body fresh rfl reads

/-- Items that registration has left: nothing is filled in but the ids of functions. -/
def Unchecked : Item → Prop
  | .function f => f.FreshInside
  | .stmt s => s.Fresh

theorem checkItem_resolves (item : Item) (fresh : Unchecked item) (reads : a.ledger.Reads named v) :
    Resolves (checkItem item a) named Item.erased a (item.resolve (functionIn named) v) := by
  intro ran
  cases item with
  | function f =>
      obtain ⟨node, reports, after⟩ := checkFunction_resolves f fresh reads ran
      exact ⟨congrArg Item.function node, reports, after⟩
  | stmt s =>
      obtain ⟨node, reports, after⟩ := checkStmt_resolves s fresh reads ran
      exact ⟨congrArg Item.stmt node, reports, after⟩

theorem latestOf_none {name : String} {named : List Named} :
    latestOf name named = none ↔ name ∉ named.map Named.name := by
  simp [latestOf]

section Registration
variable {seen : List String}

theorem functions_at_start (reads : a.ledger.Reads named .start) :
    Ledger.Holds a.ledger.functions FunctionEntry.name Checkpoint.functions a.ledger.checkpoints
      named [] := by
  -- Before any block is open, all functions are in the block that a registration looks at.
  obtain ⟨inner, outer, frames, held⟩ := reads.functions
  obtain ⟨rfl, rfl⟩ : inner = named ∧ outer = [] := by simpa [Visible.start] using frames
  exact held

theorem findFunctionInBlock_at_start (reads : a.ledger.Reads named .start) (name : String) :
    a.ledger.findFunctionInBlock name = functionIn named name := by
  rw [Ledger.findFunctionInBlock, Ledger.lookup_inner (functions_at_start reads), functionIn]

theorem registerFunction_seen (f : Function) (reads : a.ledger.Reads named .start)
    (again : f.name ∈ named.map Named.name) :
    registerFunction f a =
      (f, ⟨a.ledger, a.diagnostics.push ⟨f.line, .duplicate f.name⟩⟩) := by
  have found := findFunctionInBlock_at_start reads f.name
  unfold registerFunction
  cases known : latestOf f.name named with
  | none => exact absurd again (latestOf_none.mp known)
  | some index =>
      rw [functionIn, known] at found
      simp only [found, Option.map_some]

theorem registerFunction_new (f : Function) (reads : a.ledger.Reads named .start)
    (size : a.ledger.functions.size = named.length) (first : f.name ∉ named.map Named.name) :
    (registerFunction f a).1 = { f with id := some ⟨named.length⟩ } ∧
      (registerFunction f a).2.diagnostics = a.diagnostics ∧
      (registerFunction f a).2.ledger.functions.size = named.length + 1 ∧
      (registerFunction f a).2.ledger.Reads (⟨f.name, named.length⟩ :: named) .start := by
  have found := findFunctionInBlock_at_start reads f.name
  have held := functions_at_start reads
  have pushed := Ledger.holds_push held ⟨f.name, f.returns, f.paramTypes, f.line⟩
  rw [functionIn, latestOf_none.mpr first] at found
  rw [size] at pushed
  unfold registerFunction
  simp only [found, Option.map_none]
  refine ⟨?_, trivial, ?_, reads.vars, reads.count, reads.depth, _, [], rfl, pushed⟩
  · simp only [Ledger.addFunction, size]
  · simp only [Ledger.addFunction, Array.size_push, size]

theorem functionOf_function (f : Function) (items : List Item) (name : String) :
    Program.functionOf ⟨.function f :: items⟩ name =
      if f.name = name then f.id else Program.functionOf ⟨items⟩ name := by
  by_cases same : f.name = name <;> simp [Program.functionOf, Program.functions, same]

theorem functionOf_stmt (s : Stmt) (items : List Item) :
    Program.functionOf ⟨.stmt s :: items⟩ = Program.functionOf ⟨items⟩ := rfl

theorem functionIn_seen (f : Function) (items : List Item) (again : f.name ∈ named.map Named.name)
    (name : String) :
    (functionIn named name).or (Program.functionOf ⟨.function f :: items⟩ name) =
      (functionIn named name).or (Program.functionOf ⟨items⟩ name) := by
  -- A further function of a name does not hide the first one.
  rw [functionOf_function]
  by_cases same : f.name = name
  · subst same
    obtain ⟨index, known⟩ :=
      Option.ne_none_iff_exists'.mp fun none => latestOf_none.mp none again
    simp [functionIn, known]
  · rw [if_neg same]

theorem functionIn_new (f : Function) (items : List Item) (known : f.id = some ⟨named.length⟩)
    (first : f.name ∉ named.map Named.name) (name : String) :
    (functionIn (⟨f.name, named.length⟩ :: named) name).or
      (Program.functionOf ⟨items⟩ name) =
      (functionIn named name).or (Program.functionOf ⟨.function f :: items⟩ name) := by
  rw [functionOf_function]
  by_cases same : f.name = name
  · subst same
    have latest :
        functionIn (⟨f.name, named.length⟩ :: named) f.name = some ⟨named.length⟩ := by
      simp [functionIn, latestOf]
    have absent : functionIn named f.name = none := by
      rw [functionIn, latestOf_none.mpr first]
      rfl
    simp [known, latest, absent]
  · simp [functionIn, latestOf, same]

/-- Registration numbers the functions. Afterwards the ledger has, for every name, the function it
had or else the first one of that name. -/
theorem register_numbers (items : List Item) (fresh : ∀ item ∈ items, item.Fresh)
    (reads : a.ledger.Reads named .start) (size : a.ledger.functions.size = named.length) :
    let visit := Visit.each registerItem items a
    visit.stopped = none ∧ visit.node = numbered (named.map Named.name) items ∧
      unknowns visit.state.diagnostics.toList = unknowns a.diagnostics.toList ∧
      ∃ after, visit.state.ledger.Reads after .start ∧
        ∀ name, functionIn after name = (functionIn named name).or
          (Program.functionOf ⟨numbered (named.map Named.name) items⟩ name) := by
  induction items generalizing a named with
  | nil => exact ⟨rfl, rfl, rfl, named, reads, fun name => Option.or_none.symm⟩
  | cons item rest ih =>
      have others := fun other member => fresh other (List.mem_cons_of_mem _ member)
      rw [Visit.each_cons]
      cases item with
      | stmt s =>
          obtain ⟨ran, nodes, reports, after, read, found⟩ := ih others reads size
          refine ⟨ran, ?_, reports, after, read, ?_⟩
          · simp only [registerItem, Visit.done, Visit.map, nodes, numbered]
          · simpa only [numbered, functionOf_stmt] using found
      | function f =>
          by_cases again : f.name ∈ named.map Named.name
          · have step := registerFunction_seen f reads again
            have kept :
              (Analysis.mk a.ledger (a.diagnostics.push ⟨f.line, .duplicate f.name⟩)).ledger.Reads
              named .start := reads
            obtain ⟨ran, nodes, reports, after, read, found⟩ := ih others kept size
            simp only [registerItem, step, Visit.done]
            refine ⟨ran, ?_, reports.trans ?_, after, read, ?_⟩
            · simp only [Visit.map, nodes, numbered, if_pos again]
            · simp [unknowns, Diagnostic.unknown?]
            · intro name
              rw [found, numbered, if_pos again, functionIn_seen f _ again]
          · obtain ⟨node, diagnostics, larger, extended⟩ :=
              registerFunction_new f reads size again
            obtain ⟨ran, nodes, reports, after, read, found⟩ := ih others extended larger
            simp only [registerItem, Visit.done]
            refine ⟨ran, ?_, reports.trans (by rw [diagnostics]), after, read, ?_⟩
            · simp only [Visit.map, nodes, numbered, if_neg again, node, List.map_cons,
                List.length_map]
            · intro name
              rw [found, numbered, if_neg again, List.length_map]
              exact functionIn_new { f with id := some ⟨named.length⟩ } _ rfl again name

end Registration

theorem numbered_unchecked (seen : List String) (items : List Item)
    (fresh : ∀ item ∈ items, item.Fresh) :
    ∀ item ∈ numbered seen items, Unchecked item := by
  induction items generalizing seen with
  | nil => simp [numbered]
  | cons item rest ih =>
      have own := fresh item List.mem_cons_self
      have others :=
        fun seen => ih seen fun other member => fresh other (List.mem_cons_of_mem _ member)
      cases item with
      | stmt s => exact List.forall_mem_cons.mpr ⟨own, others seen⟩
      | function f =>
          rw [numbered]
          split
          · exact List.forall_mem_cons.mpr ⟨own.2, others _⟩
          · exact List.forall_mem_cons.mpr ⟨own.2, others _⟩

end Analysis

namespace Program

theorem reads_empty (limit : Nat) : (Ledger.empty limit).Reads [] .start :=
  ⟨Ledger.holds_start _ _, rfl, rfl, [], [], rfl, Ledger.holds_start _ _⟩

/-- An analysis that reached its end went through both passes and closed every block. -/
theorem analyze_ran {p : Program} {ledger : Ledger} (ended : (p.analyze ledger).stopped = none) :
    let registered := Visit.each Analysis.registerItem p.items ⟨ledger, #[]⟩
    let checked := Visit.each Analysis.checkItem registered.node registered.state
    checked.stopped = none ∧ checked.state.ledger.depth = 0 ∧
      p.analyze ledger = .done ⟨checked.node⟩ checked.state := by
  intro registered checked
  have passes : p.analyze ledger = (registered.andThen fun items a =>
    (Visit.each Analysis.checkItem items a).andThen Analysis.checkClosed).map Program.mk := rfl
  rw [passes] at ended ⊢
  obtain ⟨_, second⟩ := registered.andThen_ran ended
  rw [second] at ended ⊢
  obtain ⟨ran, last⟩ := checked.andThen_ran ended
  have closing : (Analysis.checkClosed checked.node checked.state).stopped = none := last ▸ ended
  have closed : checked.state.ledger.depth = 0 := by
    unfold Analysis.checkClosed at closing
    split at closing
    · assumption
    · cases closing
  refine ⟨ran, closed, ?_⟩
  rw [last, Analysis.checkClosed, if_pos closed]
  rfl

/-- The tree that analysis leaves is the resolved one with types and casts, and its ledger answers
from the scope that resolution leaves. -/
theorem analyze_erased {p : Program} (fresh : p.Fresh) {limit : Nat}
    (ended : (p.analyze (.empty limit)).stopped = none) :
    (p.analyze (.empty limit)).node.erased = p.resolve.node ∧
      unknowns (p.analyze (.empty limit)).state.diagnostics.toList = p.resolve.unknown ∧
      ∃ named, (p.analyze (.empty limit)).state.ledger.Reads named p.resolve.scope := by
  have empty : (Analysis.mk (.empty limit) #[]).ledger.Reads [] .start := reads_empty limit
  obtain ⟨_, nodes, reports, named, reads, found⟩ :=
    Analysis.register_numbers p.items fresh empty rfl
  -- Registration has seen all items, so from now on a name has the first function of that name.
  have functions : functionIn named = p.registered.functionOf := funext found
  obtain ⟨checked, _, visit⟩ := analyze_ran ended
  rw [nodes] at checked visit
  obtain ⟨node, unknown, after⟩ := Analysis.each_resolves _
    (fun item member a v reads => Analysis.checkItem_resolves item
      (Analysis.numbered_unchecked [] p.items fresh item member) reads) reads checked
  rw [functions] at node unknown after
  rw [visit]
  refine ⟨congrArg Program.mk node, unknown.trans ?_, named, after⟩
  rw [reports]
  rfl

theorem analyze_bare {p : Program} (fresh : p.Fresh) {limit : Nat}
    (ended : (p.analyze (.empty limit)).stopped = none) :
    (p.analyze (.empty limit)).node.bare = p := by
  rw [← bare_erased, (analyze_erased fresh ended).1, resolve_bare, bare_fresh p fresh]

/-- A fresh program that is analysed to its end has every name bound by lexical scoping, whatever
else is wrong with it, and its unknown names are reported, each use once and in order. -/
theorem analyze_resolves (p : Program) (fresh : p.Fresh) (limit : Nat)
    (ended : (p.analyze (.empty limit)).stopped = none) :
    (p.analyze (.empty limit)).node.erased = p.resolve.node ∧
      unknowns (p.analyze (.empty limit)).state.diagnostics.toList = p.resolve.unknown := by
  obtain ⟨node, unknown, _⟩ := analyze_erased fresh ended
  exact ⟨node, unknown⟩

def shadowing : Program :=
  ⟨[.stmt (.declare 1 ⟨"x", .int, some (.int ⟨1, none⟩ 1), none⟩),
    .stmt (.beginBlock 2),
    .stmt (.declare 3 ⟨"x", .double, some (.name ⟨3, none⟩ "x" none), none⟩),
    .stmt (.expr 4 (.assign ⟨4, none⟩ .plain (.name ⟨4, none⟩ "x" none)
      (.name ⟨4, none⟩ "y" none))),
    .stmt (.endBlock 5),
    .stmt (.declare 6 ⟨"y", .int, none, none⟩),
    .stmt (.expr 7 (.binary ⟨7, none⟩ (.arith .add) (.name ⟨7, none⟩ "x" none)
      (.name ⟨7, none⟩ "y" none)))]⟩

theorem shadowing_resolves :
    shadowing.Fresh ∧ (shadowing.analyze (.empty 1)).stopped = none ∧
      (shadowing.analyze (.empty 1)).node.erased = shadowing.resolve.node ∧
      unknowns (shadowing.analyze (.empty 1)).state.diagnostics.toList = [(4, "y")] := by
  have fresh : shadowing.Fresh := by decide
  have ended : (shadowing.analyze (.empty 1)).stopped = none := rfl
  obtain ⟨node, unknown⟩ := analyze_resolves shadowing fresh 1 ended
  exact ⟨fresh, ended, node, unknown⟩

end Program
end StackCompiler
