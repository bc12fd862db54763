import StackCompiler.Proofs.Typing.Clean

/-!
The variables of a program in the order in which analysis meets them.

The ledger records a variable where it is declared: a statement at its place, and a parameter of a
function with a body at the start of that body. What a clean analysis leaves in the ledger is
therefore a list that can be read off the program.
-/
namespace StackCompiler

def Stmt.vars : Stmt → List VariableEntry
  | declare line decl => [⟨decl.name, decl.ty, line⟩]
  | expr .. | beginBlock _ | endBlock _ | enterIf .. | leaveIf _ => []

def Param.variable (line : Nat) (param : Param) : VariableEntry := ⟨param.name, param.ty, line⟩

def Function.vars (f : Function) : List VariableEntry :=
  f.stored.map (Param.variable f.line) ++ f.stmts.flatMap Stmt.vars

def Item.vars : Item → List VariableEntry
  | function f => f.vars
  | stmt s => s.vars

def Program.vars (p : Program) : List VariableEntry := p.items.flatMap Item.vars

@[simp] theorem Stmt.bare_vars (s : Stmt) : s.bare.vars = s.vars := by
  cases s <;> rfl

theorem Function.bare_vars (f : Function) : f.bare.vars = f.vars := by
  rcases f with ⟨name, returns, params, _ | body, line, id⟩
  · rfl
  · simp [vars, bare, stored_some, stmts_some, List.flatMap_map, Function.comp_def, Param.bare,
      Param.variable]

theorem Program.bare_vars (p : Program) : p.bare.vars = p.vars := by
  have item : ∀ item : Item, item.bare.vars = item.vars := by
    intro item
    cases item with
    | function f => exact f.bare_vars
    | stmt s => exact s.bare_vars
  simp [vars, bare, List.flatMap_map, item]

/-- What a step of a clean analysis has recorded: it found a clean state and added the variables to
the ledger. -/
structure Recorded (before after : Analysis) (added : List VariableEntry) : Prop where
  clean : before.diagnostics = #[]
  vars : after.ledger.vars.toList = before.ledger.vars.toList ++ added

namespace Analysis
variable {a : Analysis}

theorem recorded_still {after : Analysis} (clean : a.diagnostics = #[])
    (kept : after.ledger.vars = a.ledger.vars) :
    Recorded a after [] :=
  ⟨clean, by rw [kept, List.append_nil]⟩

theorem declare_recorded {name : String} {ty : Ty} {line : Nat}
    (clean : (a.declare name ty line).2.diagnostics = #[]) :
    Recorded a (a.declare name ty line).2 [⟨name, ty, line⟩] := by
  rcases declare_clean clean with ⟨before, shape⟩
  rw [shape]
  exact ⟨before, Array.toList_push⟩

theorem checkDeclaration_recorded (line : Nat) (decl : Declaration)
    (clean : (checkDeclaration line decl a).2.diagnostics = #[]) :
    Recorded a (checkDeclaration line decl a).2 [⟨decl.name, decl.ty, line⟩] := by
  rcases decl with ⟨name, ty, init, old⟩
  have recorded : (a.declare name ty line).2.diagnostics = #[] →
    Recorded a (a.declare name ty line).2 _ :=
    declare_recorded
  cases declared : a.declare name ty line with
  | mk id next =>
      rw [declared] at recorded
      simp only [checkDeclaration, declared] at clean ⊢
      rcases id with _ | id
      · exact recorded clean
      · rcases init with _ | init
        · exact recorded clean
        · rcases recorded (report_clean clean).1 with ⟨before, vars⟩
          exact ⟨before, vars⟩

theorem checkStmt_recorded (s : Stmt) (ran : (checkStmt s a).stopped = none)
    (clean : (checkStmt s a).state.diagnostics = #[]) :
    Recorded a (checkStmt s a).state s.vars := by
  cases s with
  | expr line value | enterIf line condition => exact recorded_still (report_clean clean).1 rfl
  | leaveIf line => exact recorded_still clean rfl
  | beginBlock line =>
      unfold checkStmt crossing at ran clean ⊢
      cases opens : a.ledger.openBlock with
      | error fault => simp [opens, Visit.stop] at ran
      | ok next =>
          rw [opens] at clean
          exact recorded_still clean (openBlock_keeps opens).1
  | endBlock line =>
      unfold checkStmt crossing at ran clean ⊢
      cases closes : a.ledger.closeBlock with
      | error fault => simp [closes, Visit.stop] at ran
      | ok next =>
          rw [closes] at clean
          exact recorded_still clean (closeBlock_keeps closes).1
  | declare line decl =>
      rcases decl with ⟨name, ty, _ | init, id⟩
      · exact checkDeclaration_recorded line _ clean
      · rcases checkDeclaration_recorded line _ clean with ⟨before, vars⟩
        exact ⟨(report_clean before).1, vars⟩

theorem each_recorded {α : Type} {check : α → Analysis → Checking α}
    {added : α → List VariableEntry} (members : List α)
    (one : ∀ member ∈ members, ∀ a : Analysis, (check member a).stopped = none →
      (check member a).state.diagnostics = #[] → Recorded a (check member a).state (added member))
    (ran : (Visit.each check members a).stopped = none)
    (clean : (Visit.each check members a).state.diagnostics = #[]) :
    Recorded a (Visit.each check members a).state (members.flatMap added) := by
  induction members generalizing a with
  | nil => exact recorded_still clean rfl
  | cons member rest ih =>
      rcases List.forall_mem_cons.mp one with ⟨own, others⟩
      rcases Visit.each_ran ran with ⟨first, ended, visit⟩
      rw [visit] at clean ⊢
      have later := ih others ended clean
      have now := own a first later.clean
      constructor
      · exact now.clean
      · rw [List.flatMap_cons, ← List.append_assoc, ← now.vars]
        exact later.vars

theorem declareParams_recorded (line : Nat) (params : List Param)
    (clean : (declareParams line params a).2.diagnostics = #[]) :
    Recorded a (declareParams line params a).2 (params.map (Param.variable line)) := by
  induction params generalizing a with
  | nil => exact recorded_still clean rfl
  | cons param rest ih =>
      rw [declareParams_cons] at clean ⊢
      have later := ih clean
      have now := declare_recorded later.clean
      constructor
      · exact now.clean
      · rw [later.vars, now.vars, List.map_cons, List.append_assoc]
        rfl

theorem checkBody_recorded (f : Function) (body : List Stmt)
    (ran : (checkBody f body a).stopped = none)
    (clean : (checkBody f body a).state.diagnostics = #[]) :
    Recorded a (checkBody f body a).state
      (f.params.map (Param.variable f.line) ++ body.flatMap Stmt.vars) := by
  rcases checkBody_ran ran with ⟨ledger, next, opens, stopped, closes, visit⟩
  rw [visit] at clean ⊢
  have stmts := each_recorded body (fun s _ a => checkStmt_recorded s (a := a)) stopped clean
  have params := declareParams_recorded f.line f.params stmts.clean
  have opened := (openBlock_keeps opens).1
  have closed := (closeBlock_keeps (closeBody_ok closes)).1
  constructor
  · exact params.clean
  · show next.vars.toList = _
    rw [closed, stmts.vars, params.vars, List.append_assoc, ← opened]

theorem checkItem_recorded (item : Item) (registered : ∀ f, item = .function f → f.id.isSome)
    (ran : (checkItem item a).stopped = none) (clean : (checkItem item a).state.diagnostics = #[]) :
    Recorded a (checkItem item a).state item.vars := by
  cases item with
  | stmt s => exact checkStmt_recorded s ran clean
  | function f =>
      have known := registered f rfl
      rcases f with ⟨name, returns, params, _ | body, line, _ | id⟩
      · cases known
      · exact recorded_still clean rfl
      · cases known
      · exact checkBody_recorded _ body ran clean

theorem registerItem_vars (item : Item) (a : Analysis) :
    (registerItem item a).node.vars = item.vars := by
  cases item with
  | stmt s => rfl
  | function f =>
      simp only [registerItem, registerFunction, Visit.done]
      split <;> rfl

end Analysis

namespace Program

/-- Analysis that reports nothing records the variables of a program in visiting order. -/
theorem analyze_vars {p : Program} (fresh : p.Fresh) {limit : Nat}
    (ended : (p.analyze (.empty limit)).stopped = none)
    (clean : (p.analyze (.empty limit)).state.diagnostics = #[]) :
    (p.analyze (.empty limit)).state.ledger.vars.toList = p.vars := by
  have empty : (Analysis.mk (.empty limit) #[]).ledger.Reads [] .start := reads_empty limit
  rcases Analysis.register_numbers p.items fresh empty rfl with ⟨_, _, _, named, reads, _⟩
  have sound := analyze_sound fresh ended clean
  rcases analyze_ran ended with ⟨ran, _, visit⟩
  have kept := Analysis.each_signatures _ ran
  have same := Visit.each_keeps Analysis.registerItem_vars p.items ⟨.empty limit, #[]⟩
  rw [visit] at clean sound ⊢
  have registered :
      ∀ item ∈ (Visit.each Analysis.registerItem p.items ⟨.empty limit, #[]⟩).node,
        ∀ f, item = .function f → f.id.isSome := by
    rintro _ member f rfl
    have listed :
        (f.id, f.entry) ∈ Analysis.signatures (Visit.each Analysis.registerItem p.items _).node :=
      List.mem_map.mpr ⟨f, mem_functions.mpr member, rfl⟩
    rw [← kept] at listed
    rcases List.mem_map.mp listed with ⟨g, among, alike⟩
    rw [← (Prod.mk.inj alike).1]
    exact sound.registered among
  have recorded := Analysis.each_recorded _ (fun item member a => Analysis.checkItem_recorded item
    (registered item member) (a := a)) ran clean
  have start :
      (Visit.each Analysis.registerItem p.items ⟨.empty limit, #[]⟩).state.ledger.vars = #[] :=
    Array.eq_empty_of_size_eq_zero reads.count
  have vars := recorded.vars
  rw [start, Array.toList_empty, List.nil_append, List.flatMap_def, same] at vars
  exact vars

end Program
end StackCompiler
