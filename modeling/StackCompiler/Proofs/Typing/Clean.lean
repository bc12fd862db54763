import StackCompiler.Proofs.Typing.Checked
import StackCompiler.Proofs.Typing.Resolution

/-!
Analyses that report nothing.

If nothing is wrong with a program then every node obeys its typing rule, every declaration has an
id, and the ids are the places of the declarations in visiting order. Steps are composed through
`Settled`, which keeps for later ledgers what a step established.
-/
namespace StackCompiler

namespace Ledger

/-- A ledger that has at least the variables of another one, and the same functions. -/
structure Extends (later ledger : Ledger) : Prop where
  vars : ∀ id entry, ledger.variableAt? id = some entry → later.variableAt? id = some entry
  functions : later.functions = ledger.functions

theorem extends_same (ledger : Ledger) : ledger.Extends ledger := ⟨fun _ _ found => found, rfl⟩

theorem extends_through {last later ledger : Ledger} (second : last.Extends later)
    (first : later.Extends ledger) : last.Extends ledger :=
  ⟨fun id entry found => second.vars id entry (first.vars id entry found),
    second.functions.trans first.functions⟩

end Ledger

theorem Expr.checked_later {later ledger : Ledger} (extension : later.Extends ledger) {e : Expr}
    (checked : e.Checked ledger) : e.Checked later := by
  have functions : ∀ id, later.functionAt? id = ledger.functionAt? id := fun id => by
    rw [Ledger.functionAt?, extension.functions]
    rfl
  cases e with
  | name note identifier binding =>
      match binding with
      | none => exact checked
      | some (.variable id) =>
          obtain ⟨entry, found, typed⟩ := checked
          exact ⟨entry, extension.vars id entry found, typed⟩
      | some (.function id) =>
          obtain ⟨entry, found, typed⟩ := checked
          exact ⟨entry, (functions id).trans found, typed⟩
  | call note callee args =>
      obtain ⟨calleeNote, identifier, id, entry, shape, found, types, typed⟩ := checked
      exact ⟨calleeNote, identifier, id, entry, shape, (functions id).trans found, types, typed⟩
  | bool | int | double | binary | unary | assign | cast => exact checked

theorem Expr.sound_later {later ledger : Ledger} (extension : later.Extends ledger)
    {e : Expr} {ty : Ty} (sound : e.Sound ledger ty) : e.Sound later ty :=
  ⟨fun node member => checked_later extension (sound.1 node member), sound.2⟩

namespace Stmt

def declared : Stmt → List VarId
  | declare _ decl => decl.id.toList
  | _ => []

/-- What a statement is when nothing is wrong with it. -/
def Sound (ledger : Ledger) : Stmt → Prop
  | expr _ value => ∃ ty, value.Sound ledger ty
  | declare _ decl =>
      (∃ id, decl.id = some id ∧ id.index < ledger.vars.size) ∧
        ∀ init ∈ decl.init, init.Sound ledger decl.ty
  | enterIf _ condition => condition.Sound ledger .boolean
  | beginBlock _ | endBlock _ | leaveIf _ => True

end Stmt

def Param.Sound (ledger : Ledger) (param : Param) : Prop :=
  ∃ id, param.id = some id ∧ id.index < ledger.vars.size

namespace Function

def declared (f : Function) : List VarId :=
  (f.stored.flatMap fun param => param.id.toList) ++ f.stmts.flatMap Stmt.declared

def Sound (ledger : Ledger) (f : Function) : Prop :=
  (∀ param ∈ f.stored, param.Sound ledger) ∧ ∀ s ∈ f.stmts, s.Sound ledger

end Function

namespace Item

def declared : Item → List VarId
  | function f => f.declared
  | stmt s => s.declared

/-- A function that was not registered is not looked into. -/
def Sound (ledger : Ledger) : Item → Prop
  | function f => f.id.isSome → f.Sound ledger
  | stmt s => s.Sound ledger

end Item

/-- What a step of a clean analysis has done: it found a clean state, kept what the ledger said,
declared variables with the next ids, and left a part of which `Holds` is true now and later. -/
structure Settled {α : Type} (before after : Analysis) (node : α) (declared : α → List VarId)
    (Holds : Ledger → α → Prop) : Prop where
  clean : before.diagnostics = #[]
  extension : after.ledger.Extends before.ledger
  ids : List.range before.ledger.vars.size ++ (declared node).map VarId.index =
    List.range after.ledger.vars.size
  holds : ∀ later : Ledger, later.Extends after.ledger → Holds later node

namespace Analysis
variable {a : Analysis}

theorem report_clean {found : List Diagnostic} (clean : (a.report found).diagnostics = #[]) :
    a.diagnostics = #[] ∧ found = [] := by
  have empty : (a.report found).diagnostics.toList = [] := congrArg Array.toList clean
  simpa [report] using empty

theorem declare_clean {name : String} {ty : Ty} {line : Nat}
    (clean : (a.declare name ty line).2.diagnostics = #[]) :
    a.diagnostics = #[] ∧
      a.declare name ty line = (some ⟨a.ledger.vars.size⟩,
        ⟨(a.ledger.addVariable ⟨name, ty, line⟩).2, a.diagnostics⟩) := by
  obtain ⟨ledger, diagnostics⟩ := a
  simp only [declare] at clean ⊢
  split at clean
  · simp at clean
  · exact ⟨clean, rfl⟩

theorem addVariable_extends (ledger : Ledger) (entry : VariableEntry) :
    (ledger.addVariable entry).2.Extends ledger := by
  refine ⟨fun id found known => ?_, rfl⟩
  obtain ⟨below, _⟩ := Array.getElem?_eq_some_iff.mp known
  exact (Array.getElem?_push_lt below).trans (known ▸ (Array.getElem?_eq_getElem below).symm)

theorem addVariable_size (ledger : Ledger) (entry : VariableEntry) :
    (ledger.addVariable entry).2.vars.size = ledger.vars.size + 1 :=
  Array.size_push _

theorem size_later {later ledger : Ledger} (extension : later.Extends ledger) :
    ledger.vars.size ≤ later.vars.size := by
  rcases Nat.eq_zero_or_pos ledger.vars.size with none | some
  · omega
  · have below : ledger.vars.size - 1 < ledger.vars.size := by omega
    have last := extension.vars ⟨ledger.vars.size - 1⟩ _ (Array.getElem?_eq_getElem below)
    obtain ⟨reach, _⟩ := Array.getElem?_eq_some_iff.mp last
    simp only at reach
    omega

theorem openBlock_keeps {ledger next : Ledger} (opens : ledger.openBlock = .ok next) :
    next.vars = ledger.vars ∧ next.functions = ledger.functions := by
  unfold Ledger.openBlock at opens
  split at opens
  · cases opens
  · cases opens
    exact ⟨rfl, rfl⟩

theorem closeBlock_keeps {ledger next : Ledger} (closes : ledger.closeBlock = .ok next) :
    next.vars = ledger.vars ∧ next.functions = ledger.functions := by
  unfold Ledger.closeBlock at closes
  split at closes
  · cases closes
  · cases closes
    exact ⟨rfl, rfl⟩

theorem kept_extends {ledger next : Ledger}
    (kept : next.vars = ledger.vars ∧ next.functions = ledger.functions) : next.Extends ledger :=
  ⟨fun id entry known => by rw [Ledger.variableAt?, kept.1]; exact known, kept.2⟩

theorem crossing_node (s : Stmt) (a : Analysis) (step : Ledger → Except Fault Ledger) :
    (crossing s a step).node = s := by
  unfold crossing
  split <;> rfl

theorem coerceInit_clean {line : Nat} {declared ty : Ty} {init : Expr} {ledger : Ledger}
    (sound : init.Sound ledger ty) (clean : (coerceInit line declared init).diagnostics = []) :
    (coerceInit line declared init).node.Sound ledger declared := by
  unfold coerceInit at clean ⊢
  simp only [sound.2] at clean ⊢
  split at clean
  · rename_i coercion coerced
    exact Expr.sound_coerce sound coerced
  · cases clean

theorem declare_settled {name : String} {ty : Ty} {line : Nat} {init : Option Expr}
    {after : Analysis} (before : a.diagnostics = #[])
    (same : after.ledger = (a.ledger.addVariable ⟨name, ty, line⟩).2)
    (sound : ∀ value ∈ init, value.Sound a.ledger ty) :
    Settled a after (Stmt.declare line ⟨name, ty, init, some ⟨a.ledger.vars.size⟩⟩)
      Stmt.declared Stmt.Sound := by
  have extension := addVariable_extends a.ledger ⟨name, ty, line⟩
  have size := addVariable_size a.ledger ⟨name, ty, line⟩
  rw [← same] at extension size
  refine ⟨before, extension, ?_, fun later onward => ⟨⟨_, rfl, ?_⟩, fun value member => ?_⟩⟩
  · rw [size, List.range_succ]
    rfl
  · have reach := size_later onward
    simp only at reach ⊢
    omega
  · exact Expr.sound_later (Ledger.extends_through onward extension) (sound value member)

theorem checkDeclaration_settled (line : Nat) (decl : Declaration)
    (typed : a.diagnostics = #[] → ∀ init ∈ decl.init, ∃ ty, init.Sound a.ledger ty)
    (clean : (checkDeclaration line decl a).2.diagnostics = #[]) :
    Settled a (checkDeclaration line decl a).2 (Stmt.declare line (checkDeclaration line decl a).1)
      Stmt.declared Stmt.Sound := by
  obtain ⟨name, ty, init, id⟩ := decl
  cases declared : a.declare name ty line with
  | mk id next =>
      have known (quiet : next.diagnostics = #[]) :
          a.diagnostics = #[] ∧ id = some ⟨a.ledger.vars.size⟩ ∧
            next.ledger = (a.ledger.addVariable ⟨name, ty, line⟩).2 := by
        obtain ⟨before, shape⟩ := declare_clean (congrArg (·.2.diagnostics) declared |>.trans quiet)
        cases declared.symm.trans shape
        exact ⟨before, rfl, rfl⟩
      simp only [checkDeclaration, declared] at clean ⊢
      match id, init with
      | none, _ => cases (known clean).2.1
      | some id, none =>
          obtain ⟨before, same, ledger⟩ := known clean
          cases same
          exact declare_settled before ledger fun _ absent => by cases absent
      | some id, some init =>
          obtain ⟨clean, coerced⟩ := report_clean clean
          obtain ⟨before, same, ledger⟩ := known clean
          cases same
          obtain ⟨source, sound⟩ := typed before init rfl
          refine declare_settled before ledger ?_
          rintro _ ⟨⟩
          exact coerceInit_clean sound coerced

theorem settled_still {after : Analysis} {s : Stmt} (before : a.diagnostics = #[])
    (kept : after.ledger.vars = a.ledger.vars ∧ after.ledger.functions = a.ledger.functions)
    (none : s.declared = [])
    (holds : ∀ later : Ledger, later.Extends a.ledger → s.Sound later) :
    Settled a after s Stmt.declared Stmt.Sound := by
  refine ⟨before, kept_extends kept, by simp [none, kept.1], ?_⟩
  exact fun later extension => holds later (Ledger.extends_through extension (kept_extends kept))

theorem checkStmt_settled (s : Stmt) (fresh : s.Fresh) (ran : (checkStmt s a).stopped = none)
    (clean : (checkStmt s a).state.diagnostics = #[]) :
    Settled a (checkStmt s a).state (checkStmt s a).node Stmt.declared Stmt.Sound := by
  cases s with
  | expr line value =>
      obtain ⟨before, clean⟩ := report_clean clean
      obtain ⟨ty, sound⟩ := a.ledger.typeExpr_sound value fresh clean
      exact settled_still before ⟨rfl, rfl⟩ rfl fun later extension =>
        ⟨ty, Expr.sound_later extension sound⟩
  | enterIf line condition =>
      obtain ⟨before, clean⟩ := report_clean clean
      obtain ⟨clean, boolean⟩ := List.append_eq_nil_iff.mp clean
      obtain ⟨ty, sound⟩ := a.ledger.typeExpr_sound condition fresh clean
      have typed : ty = .boolean := by
        rw [conditionDiagnostics, sound.2] at boolean
        cases ty with
        | boolean => rfl
        | int | double => cases boolean
      subst typed
      exact settled_still before ⟨rfl, rfl⟩ rfl fun later extension =>
        Expr.sound_later extension sound
  | leaveIf line => exact settled_still clean ⟨rfl, rfl⟩ rfl fun _ _ => trivial
  | beginBlock line =>
      unfold checkStmt crossing at ran clean ⊢
      cases opens : a.ledger.openBlock with
      | error fault => simp [opens, Visit.stop] at ran
      | ok next =>
          rw [opens] at clean
          exact settled_still clean (openBlock_keeps opens) rfl fun _ _ => trivial
  | endBlock line =>
      unfold checkStmt crossing at ran clean ⊢
      cases closes : a.ledger.closeBlock with
      | error fault => simp [closes, Visit.stop] at ran
      | ok next =>
          rw [closes] at clean
          exact settled_still clean (closeBlock_keeps closes) rfl fun _ _ => trivial
  | declare line decl =>
      obtain ⟨name, ty, init, id⟩ := decl
      cases init with
      | none => exact checkDeclaration_settled line _ (fun _ _ absent => by cases absent) clean
      | some init =>
          have typed : (a.report (a.ledger.typeExpr init).diagnostics).diagnostics = #[] →
              ∃ ty, (a.ledger.typeExpr init).node.Sound a.ledger ty := fun quiet =>
            a.ledger.typeExpr_sound init (fresh.2 init rfl) (report_clean quiet).2
          obtain ⟨before, extension, ids, holds⟩ := checkDeclaration_settled line
            ⟨name, ty, some (a.ledger.typeExpr init).node, id⟩ (fun quiet _ same => by
              cases same
              exact typed quiet) clean
          exact ⟨(report_clean before).1, extension, ids, holds⟩

theorem each_settled {α : Type} {check : α → Analysis → Checking α}
    {declared : α → List VarId} {Holds : Ledger → α → Prop} (members : List α)
    (one : ∀ member ∈ members, ∀ a : Analysis, (check member a).stopped = none →
      (check member a).state.diagnostics = #[] →
      Settled a (check member a).state (check member a).node declared Holds)
    (ran : (Visit.each check members a).stopped = none)
    (clean : (Visit.each check members a).state.diagnostics = #[]) :
    Settled a (Visit.each check members a).state (Visit.each check members a).node
      (fun nodes => nodes.flatMap declared)
      (fun ledger nodes => ∀ node ∈ nodes, Holds ledger node) := by
  induction members generalizing a with
  | nil => exact ⟨clean, a.ledger.extends_same, by simp [Visit.done], by simp [Visit.done]⟩
  | cons member rest ih =>
      obtain ⟨first, others, visit⟩ := Visit.each_ran ran
      rw [visit] at clean ⊢
      have later := ih (fun other inside => one other (List.mem_cons_of_mem _ inside)) others clean
      have now := one member List.mem_cons_self a first later.clean
      refine ⟨now.clean, Ledger.extends_through later.extension now.extension, ?_, ?_⟩
      · simp only [Visit.map, List.flatMap_cons, List.map_append]
        rw [← List.append_assoc, now.ids, later.ids]
      · intro last onward
        simp only [Visit.map, List.forall_mem_cons]
        exact ⟨now.holds last (Ledger.extends_through onward later.extension),
          later.holds last onward⟩

theorem declareParams_settled (line : Nat) (params : List Param)
    (clean : (declareParams line params a).2.diagnostics = #[]) :
    Settled a (declareParams line params a).2 (declareParams line params a).1
      (fun params => params.flatMap fun param => param.id.toList)
      (fun ledger params => ∀ param ∈ params, param.Sound ledger) := by
  induction params generalizing a with
  | nil =>
      exact ⟨clean, a.ledger.extends_same, by simp [declareParams], by simp [declareParams]⟩
  | cons param rest ih =>
      rw [declareParams_cons] at clean ⊢
      have later := ih clean
      obtain ⟨before, shape⟩ := declare_clean later.clean
      have extension := addVariable_extends a.ledger ⟨param.name, param.ty, line⟩
      have size := addVariable_size a.ledger ⟨param.name, param.ty, line⟩
      rw [shape] at later ⊢
      refine ⟨before, Ledger.extends_through later.extension extension, ?_, ?_⟩
      · rw [← later.ids, size, List.range_succ]
        simp
      · intro last onward
        have reach := size_later (Ledger.extends_through onward later.extension)
        simp only [size] at reach
        exact List.forall_mem_cons.mpr ⟨⟨_, rfl, Nat.lt_of_succ_le reach⟩, later.holds last onward⟩

theorem checkBody_settled (f : Function) (body : List Stmt) (fresh : ∀ s ∈ body, s.Fresh)
    (ran : (checkBody f body a).stopped = none)
    (clean : (checkBody f body a).state.diagnostics = #[]) :
    Settled a (checkBody f body a).state (checkBody f body a).node Function.declared
      Function.Sound := by
  rcases checkBody_ran ran with ⟨ledger, next, opens, stopped, closes, visit⟩
  rw [visit] at clean ⊢
  -- From the end backwards: a clean state behind the statements was clean before them.
  have stmts :=
    each_settled body (fun s member a => checkStmt_settled s (fresh s member)) stopped clean
  have params := declareParams_settled f.line f.params stmts.clean
  have opened := openBlock_keeps opens
  have closed := closeBlock_keeps (closeBody_ok closes)
  have back := Ledger.extends_through (kept_extends closed) stmts.extension
  have opening := Ledger.extends_through params.extension (kept_extends opened)
  refine ⟨params.clean, Ledger.extends_through back opening, ?_, ?_⟩
  · have ids := params.ids
    rw [opened.1] at ids
    simp only [Visit.done, Function.declared, Function.stored_some, Function.stmts_some,
      List.map_append]
    rw [← List.append_assoc, ids, stmts.ids, closed.1]
  · intro last onward
    have reach := Ledger.extends_through onward (kept_extends closed)
    simp only [Visit.done, Function.Sound, Function.stored_some, Function.stmts_some]
    exact ⟨params.holds last (Ledger.extends_through reach stmts.extension), stmts.holds last reach⟩

theorem fresh_declared {f : Function} (fresh : f.FreshInside) : f.declared = [] := by
  obtain ⟨name, returns, params, body, line, id⟩ := f
  have stmts : ∀ s : Stmt, s.Fresh → s.declared = [] := by
    intro s fresh
    cases s with
    | declare line decl => simp [Stmt.declared, fresh.1]
    | _ => rfl
  cases body with
  | none => rfl
  | some body =>
      simp only [Function.declared, Function.stored_some, Function.stmts_some,
        List.append_eq_nil_iff, List.flatMap_eq_nil_iff]
      exact ⟨fun param member => by rw [fresh.1 param member]; rfl,
        fun s member => stmts s (fresh.2 body rfl s member)⟩

theorem checkItem_settled (item : Item) (fresh : Unchecked item)
    (ran : (checkItem item a).stopped = none) (clean : (checkItem item a).state.diagnostics = #[]) :
    Settled a (checkItem item a).state (checkItem item a).node Item.declared Item.Sound := by
  cases item with
  | stmt s =>
      obtain ⟨before, extension, ids, holds⟩ := checkStmt_settled s fresh ran clean
      exact ⟨before, extension, ids, holds⟩
  | function f =>
      obtain ⟨name, returns, params, body, line, id⟩ := f
      match body, id with
      | some body, some id =>
          obtain ⟨before, extension, ids, holds⟩ :=
            checkBody_settled _ body (fresh.2 body rfl) ran clean
          exact ⟨before, extension, ids, fun later onward _ => holds later onward⟩
      | some body, none =>
          have none := fresh_declared fresh
          refine ⟨clean, a.ledger.extends_same, ?_, fun _ _ known => by cases known⟩
          simp [checkItem, checkFunction, Visit.map, Visit.done, Item.declared, none]
      | none, id =>
          have none := fresh_declared fresh
          refine ⟨clean, a.ledger.extends_same, ?_, fun _ _ _ => ⟨?_, ?_⟩⟩
          · simp [checkItem, checkFunction, Visit.map, Visit.done, Item.declared, none]
          · simp [checkFunction, Visit.done]
          · simp [checkFunction, Visit.done]

end Analysis

def Function.entry (f : Function) : FunctionEntry := ⟨f.name, f.returns, f.paramTypes, f.line⟩

namespace Analysis
variable {a : Analysis}

theorem registerFunction_clean {f : Function} (clean : (registerFunction f a).2.diagnostics = #[]) :
    registerFunction f a = ({ f with id := some ⟨a.ledger.functions.size⟩ },
      ⟨(a.ledger.addFunction f.entry).2, a.diagnostics⟩) := by
  obtain ⟨ledger, diagnostics⟩ := a
  simp only [registerFunction] at clean ⊢
  split at clean
  · simp at clean
  · rfl

def signatures (items : List Item) : List (Option FunId × FunctionEntry) :=
  (Program.functions ⟨items⟩).map fun f => (f.id, f.entry)

theorem signatures_function (f : Function) (items : List Item) :
    signatures (.function f :: items) = (f.id, f.entry) :: signatures items := rfl

theorem register_clean (items : List Item)
    (clean : (Visit.each registerItem items a).state.diagnostics = #[]) :
    a.diagnostics = #[] ∧ (Visit.each registerItem items a).state.ledger.vars = a.ledger.vars ∧
      (Visit.each registerItem items a).state.ledger.functions =
        a.ledger.functions ++ ((Program.functions ⟨items⟩).map Function.entry).toArray ∧
      signatures (Visit.each registerItem items a).node =
        (Program.functions ⟨items⟩).mapIdx fun place f =>
          (some ⟨a.ledger.functions.size + place⟩, f.entry) := by
  induction items generalizing a with
  | nil => exact ⟨clean, rfl, by simp [Visit.done, Program.functions], rfl⟩
  | cons item rest ih =>
      rw [Visit.each_cons] at clean ⊢
      cases item with
      | stmt s =>
          obtain ⟨before, vars, functions, nodes⟩ := ih clean
          exact ⟨before, vars, functions, nodes⟩
      | function f =>
          have step : registerItem (.function f) a =
              ⟨.function (registerFunction f a).1, (registerFunction f a).2, none⟩ := rfl
          rw [step] at clean ⊢
          obtain ⟨before, vars, functions, nodes⟩ := ih clean
          have shape := registerFunction_clean before
          simp only [Visit.map]
          rw [shape] at before vars functions nodes ⊢
          have all :
            Program.functions ⟨.function f :: rest⟩ = f :: Program.functions ⟨rest⟩ := rfl
          refine ⟨before, vars, ?_, ?_⟩
          · rw [functions, all]
            simp [Ledger.addFunction]
          · rw [signatures_function, all, nodes, List.mapIdx_cons]
            simp [Ledger.addFunction, Nat.add_assoc, Nat.add_comm 1, Function.entry,
              Function.paramTypes]

theorem declareParams_types (line : Nat) (params : List Param) :
    (declareParams line params a).1.map Param.ty = params.map Param.ty := by
  induction params generalizing a with
  | nil => rfl
  | cons param rest ih =>
      rw [declareParams_cons]
      simp [ih]

theorem checkFunction_signature (f : Function) :
    (checkFunction f a).node.id = f.id ∧ (checkFunction f a).node.entry = f.entry := by
  have checked : ∀ body, (checkBody f body a).node.id = f.id ∧
    (checkBody f body a).node.entry = f.entry := by
    intro body
    have types := fun a => declareParams_types (a := a) f.line f.params
    unfold checkBody
    split
    · exact ⟨rfl, rfl⟩
    · simp only
      split
      · exact ⟨rfl, by simp [Visit.stop, Function.entry, Function.paramTypes, types]⟩
      · split
        · exact ⟨rfl, by simp [Visit.stop, Function.entry, Function.paramTypes, types]⟩
        · exact ⟨rfl, by simp [Visit.done, Function.entry, Function.paramTypes, types]⟩
  unfold checkFunction
  split
  · exact checked _
  · exact ⟨rfl, rfl⟩

theorem each_signatures (items : List Item) (ran : (Visit.each checkItem items a).stopped = none) :
    signatures (Visit.each checkItem items a).node = signatures items := by
  induction items generalizing a with
  | nil => rfl
  | cons item rest ih =>
      obtain ⟨first, others, visit⟩ := Visit.each_ran ran
      have rest := ih others
      rw [visit]
      cases item with
      | stmt s => exact rest
      | function f =>
          obtain ⟨id, entry⟩ := checkFunction_signature f (a := a)
          have node : (checkItem (.function f) a).node = .function (checkFunction f a).node := rfl
          rw [Visit.map, node, signatures_function, signatures_function, id, entry, rest]

end Analysis

/-- A program in which every node obeys its rule, variables are numbered in visiting order and
functions in the order of their items. -/
structure Program.Sound (p : Program) (ledger : Ledger) : Prop where
  items : ∀ item ∈ p.items, item.Sound ledger
  ids : (p.items.flatMap Item.declared).map VarId.index = List.range ledger.vars.size
  functions : ledger.functions = (p.functions.map Function.entry).toArray
  places : p.functions.map Function.id = (List.range p.functions.length).map fun place =>
    some ⟨place⟩

namespace Program

theorem analyze_sound {p : Program} (fresh : p.Fresh) {limit : Nat}
    (ended : (p.analyze (.empty limit)).stopped = none)
    (clean : (p.analyze (.empty limit)).state.diagnostics = #[]) :
    (p.analyze (.empty limit)).node.Sound (p.analyze (.empty limit)).state.ledger := by
  have empty : (Analysis.mk (.empty limit) #[]).ledger.Reads [] .start := reads_empty limit
  obtain ⟨_, nodes, _⟩ := Analysis.register_numbers p.items fresh empty rfl
  have unchecked := Analysis.numbered_unchecked [] p.items fresh
  obtain ⟨checked, _, visit⟩ := analyze_ran ended
  rw [visit] at clean ⊢
  generalize first_pass :
    Visit.each Analysis.registerItem p.items ⟨.empty limit, #[]⟩ = first at *
  -- Functions are numbered by the first pass and variables by the second.
  have settled :=
    Analysis.each_settled first.node (fun item member a => Analysis.checkItem_settled item
    (unchecked item (nodes ▸ member))) checked clean
  have kept := Analysis.each_signatures first.node checked
  have registered := Analysis.register_clean p.items (a := ⟨.empty limit, #[]⟩)
    (by rw [first_pass]; exact settled.clean)
  rw [first_pass] at registered
  obtain ⟨_, vars, functions, places⟩ := registered
  generalize Visit.each Analysis.checkItem first.node first.state = second at *
  have placed := kept.trans places
  have entries :
    (Program.functions ⟨second.node⟩).map Function.entry = p.functions.map Function.entry := by
    have same := congrArg (List.map Prod.snd) placed
    rw [Analysis.signatures, List.map_map] at same
    refine same.trans ?_
    apply List.ext_getElem <;> simp
  show Program.Sound ⟨second.node⟩ second.state.ledger
  refine ⟨settled.holds _ (Ledger.extends_same _), ?_, ?_, ?_⟩
  · have ids := settled.ids
    rw [vars] at ids
    exact ids
  · rw [entries]
    exact settled.extension.functions.trans (by rw [functions]; simp [Ledger.empty])
  · have same := congrArg (List.map Prod.fst) placed
    have count : (Program.functions ⟨second.node⟩).length = p.functions.length := by
      simpa using congrArg List.length entries
    rw [Analysis.signatures, List.map_map] at same
    rw [count]
    refine same.trans ?_
    apply List.ext_getElem <;> simp [Ledger.empty]

end Program

theorem Program.Sound.registered {p : Program} {ledger : Ledger} (sound : p.Sound ledger)
    {f : Function} (member : f ∈ p.functions) : f.id.isSome := by
  have among : f.id ∈ p.functions.map Function.id := List.mem_map_of_mem member
  rw [sound.places] at among
  rcases List.mem_map.mp among with ⟨place, _, same⟩
  rw [← same]
  rfl

/-! What is sound has been filled in. -/

theorem Expr.Checked.given {ledger : Ledger} {e : Expr} (checked : e.Checked ledger) : e.Given := by
  cases e with
  | bool | int | double => exact Option.isSome_of_eq_some checked
  | name note identifier binding =>
      match binding with
      | none => exact checked.elim
      | some (.variable id) | some (.function id) =>
          rcases checked with ⟨entry, found, typed⟩
          exact ⟨Option.isSome_of_eq_some typed, rfl⟩
  | binary note op left right =>
      rcases checked with ⟨operand, result, _, _, typed, _⟩
      exact Option.isSome_of_eq_some typed
  | unary note op operand =>
      rcases checked with ⟨ty, _, typed, _⟩
      exact Option.isSome_of_eq_some typed
  | assign note op target value =>
      rcases checked with ⟨ty, _, _, typed, _⟩
      exact Option.isSome_of_eq_some typed
  | call note callee args =>
      rcases checked with ⟨_, _, _, _, _, _, _, typed⟩
      exact Option.isSome_of_eq_some typed
  | cast note kind operand => exact Option.isSome_of_eq_some checked.2

theorem Stmt.Sound.filled {ledger : Ledger} {s : Stmt} (sound : s.Sound ledger) : s.Filled := by
  have given : ∀ (e : Expr) ty, e.Sound ledger ty → ∀ node ∈ e.nodes, node.Given :=
    fun e ty sound node member => (sound.1 node member).given
  cases s with
  | expr line value =>
      rcases sound with ⟨ty, sound⟩
      exact ⟨by rintro _ ⟨⟩; exact given value ty sound, by rintro _ _ ⟨⟩⟩
  | enterIf line condition =>
      exact ⟨by rintro _ ⟨⟩; exact given condition _ sound, by rintro _ _ ⟨⟩⟩
  | declare line decl =>
      rcases sound with ⟨⟨id, known, _⟩, inits⟩
      constructor
      · exact fun root holds => given root _ (inits root holds)
      · rintro _ _ ⟨⟩
        exact Option.isSome_of_eq_some known
  | beginBlock | endBlock | leaveIf => exact ⟨by rintro _ ⟨⟩, by rintro _ _ ⟨⟩⟩

theorem Program.Sound.filled {p : Program} {ledger : Ledger} (sound : p.Sound ledger) :
    p.Filled := by
  intro item member
  have holds := sound.items item member
  cases item with
  | stmt s => exact holds.filled
  | function f =>
      have registered := sound.registered (mem_functions.mpr member)
      rcases holds registered with ⟨params, stmts⟩
      refine ⟨registered, fun param stored => ?_, fun s inside => (stmts s inside).filled⟩
      rcases params param stored with ⟨id, known, _⟩
      exact Option.isSome_of_eq_some known

end StackCompiler
