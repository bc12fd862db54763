import StackCompiler.Proofs.Typing.Clean

/-!
What analysis leaves typed obeys the explicit rules.

An expression is elaborated against the ledger of its moment. The ledger only gains variables while
items are checked, so what was established once is true of the final ledger too, next to any number
of reported nodes.
-/
namespace StackCompiler

/-- A statement in which every typed node obeys its rule, and whose initializer, once its variable
was accepted, was converted if it could be. -/
structure Stmt.Elaborated (ledger : Ledger) (s : Stmt) : Prop where
  nodes : ∀ root ∈ s.root?, root.Elaborated ledger
  converted : ∀ line decl, s = declare line decl → decl.id.isSome →
    ∀ init ∈ decl.init, ∀ source, init.ty = some source → source = decl.ty ∨
    Coercion.into? source decl.ty = none

def Function.Elaborated (ledger : Ledger) (f : Function) : Prop :=
  ∀ s ∈ f.stmts, s.Elaborated ledger

def Item.Elaborated (ledger : Ledger) : Item → Prop
  | function f => f.Elaborated ledger
  | stmt s => s.Elaborated ledger

section
variable {later ledger : Ledger} (extension : later.Extends ledger)
include extension

theorem Stmt.elaborated_later {s : Stmt} (elaborated : s.Elaborated ledger) :
    s.Elaborated later where
  nodes root holds node member typed :=
    Expr.checked_later extension (elaborated.nodes root holds node member typed)
  converted := elaborated.converted

theorem Item.elaborated_later {item : Item} (elaborated : item.Elaborated ledger) :
    item.Elaborated later := by
  cases item with
  | function f => exact fun s member => Stmt.elaborated_later extension (elaborated s member)
  | stmt s => exact Stmt.elaborated_later extension elaborated

end

theorem Expr.fresh_elaborated (ledger : Ledger) {e : Expr} (fresh : e.Fresh) :
    e.Elaborated ledger := by
  -- A fresh expression has no type that could be wrong.
  intro node member typed
  have blank := fresh node member
  cases node with
  | name note identifier binding =>
      rw [ty_name, blank.1] at typed
      cases typed
  | cast => exact blank.elim
  | _ =>
      rw [blank] at typed
      cases typed

theorem Stmt.fresh_elaborated (ledger : Ledger) {s : Stmt} (fresh : s.Fresh) :
    s.Elaborated ledger := by
  constructor
  · intro root holds
    cases s with
    | expr | enterIf =>
        cases holds
        exact Expr.fresh_elaborated ledger fresh
    | declare line decl => exact Expr.fresh_elaborated ledger (fresh.2 root holds)
    | beginBlock | endBlock | leaveIf => cases holds
  · rintro line decl rfl accepted
    rw [fresh.1] at accepted
    cases accepted

theorem Function.fresh_stmts {f : Function} (fresh : f.FreshInside) :
    ∀ s ∈ f.stmts, s.Fresh := by
  rcases f with ⟨name, returns, params, _ | body, line, id⟩
  · exact fun s member => by cases member
  · exact fresh.2 body rfl

namespace Analysis

/-! Checking only adds variables to the ledger. -/

theorem declare_extends (a : Analysis) (name : String) (ty : Ty) (line : Nat) :
    (a.declare name ty line).2.ledger.Extends a.ledger := by
  unfold declare
  simp only
  split
  · exact a.ledger.extends_same
  · exact addVariable_extends a.ledger ⟨name, ty, line⟩

theorem checkDeclaration_extends (line : Nat) (decl : Declaration) (a : Analysis) :
    (checkDeclaration line decl a).2.ledger.Extends a.ledger := by
  have extension := declare_extends a decl.name decl.ty line
  unfold checkDeclaration
  split
  · rename_i next declared
    rw [declared] at extension
    exact extension
  · rename_i id next declared
    rw [declared] at extension
    split <;> exact extension

theorem declareParams_extends (line : Nat) (params : List Param) (a : Analysis) :
    (declareParams line params a).2.ledger.Extends a.ledger := by
  induction params generalizing a with
  | nil => exact a.ledger.extends_same
  | cons param rest ih =>
      rw [declareParams_cons]
      exact Ledger.extends_through (ih _) (declare_extends ..)

theorem crossing_extends (s : Stmt) (a : Analysis) {step : Ledger → Except Fault Ledger}
    (keeps : ∀ next, step a.ledger = .ok next →
      next.vars = a.ledger.vars ∧ next.functions = a.ledger.functions) :
    (crossing s a step).state.ledger.Extends a.ledger := by
  unfold crossing
  split
  · rename_i next crossed
    exact kept_extends (keeps next crossed)
  · exact a.ledger.extends_same

theorem checkStmt_extends (s : Stmt) (a : Analysis) :
    (checkStmt s a).state.ledger.Extends a.ledger := by
  cases s with
  | expr | enterIf | leaveIf => exact a.ledger.extends_same
  | declare line decl =>
      rcases decl with ⟨name, ty, _ | init, id⟩
      · exact checkDeclaration_extends ..
      · exact checkDeclaration_extends line _ (a.report _)
  | beginBlock line => exact crossing_extends _ a fun next => openBlock_keeps
  | endBlock line => exact crossing_extends _ a fun next => closeBlock_keeps

theorem each_extends {α : Type} {check : α → Analysis → Checking α}
    (one : ∀ member a, (check member a).state.ledger.Extends a.ledger) (members : List α)
    (a : Analysis) :
    (Visit.each check members a).state.ledger.Extends a.ledger := by
  induction members generalizing a with
  | nil => exact a.ledger.extends_same
  | cons member rest ih =>
      have first := one member a
      rw [Visit.each_cons]
      split
      · rename_i node next visit
        rw [visit] at first
        exact Ledger.extends_through (ih next) first
      · rename_i node next fault visit
        rw [visit] at first
        exact first

theorem checkFunction_extends (f : Function) (a : Analysis) :
    (checkFunction f a).state.ledger.Extends a.ledger := by
  unfold checkFunction
  split
  · rename_i body id provided registered
    unfold checkBody
    split
    · exact a.ledger.extends_same
    · rename_i ledger opens
      have opened := kept_extends (openBlock_keeps opens)
      have params := declareParams_extends f.line f.params ⟨ledger, a.diagnostics⟩
      have stmts :=
        each_extends checkStmt_extends body
          (declareParams f.line f.params ⟨ledger, a.diagnostics⟩).2
      have inside := Ledger.extends_through stmts (Ledger.extends_through params opened)
      simp only
      split
      · exact inside
      · split
        · exact inside
        · rename_i next closes
          exact Ledger.extends_through
            (kept_extends (closeBlock_keeps (closeBody_ok closes))) inside
  · exact a.ledger.extends_same

theorem checkItem_extends (item : Item) (a : Analysis) :
    (checkItem item a).state.ledger.Extends a.ledger := by
  cases item with
  | function f => exact checkFunction_extends f a
  | stmt s => exact checkStmt_extends s a

/-- What every step establishes of its member against its own ledger is true of all members in the
end. -/
theorem each_establishes {α : Type} {check : α → Analysis → Checking α} (Holds : Ledger → α → Prop)
    (grows : ∀ member a, (check member a).state.ledger.Extends a.ledger)
    (later : ∀ (member : α) (ledger next : Ledger), next.Extends ledger →
      Holds ledger member → Holds next member)
    (members : List α)
    (one : ∀ member ∈ members, ∀ a : Analysis, (check member a).stopped = none →
      Holds (check member a).state.ledger (check member a).node)
    {a : Analysis} (ran : (Visit.each check members a).stopped = none) :
    ∀ node ∈ (Visit.each check members a).node,
    Holds (Visit.each check members a).state.ledger node := by
  induction members generalizing a with
  | nil => exact fun node member => by cases member
  | cons member rest ih =>
      rcases Visit.each_ran ran with ⟨here, others, visit⟩
      rcases List.forall_mem_cons.mp one with ⟨first, inside⟩
      have extension := each_extends grows rest (check member a).state
      rw [visit]
      exact List.forall_mem_cons.mpr ⟨later _ _ _ extension (first a here), ih inside others⟩

theorem checkFunction_establishes (Holds : Ledger → Stmt → Prop)
    (later : ∀ (s : Stmt) (ledger next : Ledger), next.Extends ledger → Holds ledger s →
      Holds next s)
    (f : Function)
    (one : ∀ body ∈ f.body, ∀ s ∈ body, ∀ a,
      Holds (checkStmt s a).state.ledger (checkStmt s a).node)
    (given : f.id.isSome) {a : Analysis} (ran : (checkFunction f a).stopped = none) :
    ∀ s ∈ (checkFunction f a).node.stmts, Holds (checkFunction f a).state.ledger s := by
  rcases f with ⟨name, returns, params, body, line, id⟩
  match body, id with
  | none, _ => exact fun s member => by cases member
  | some body, some id =>
      rcases checkBody_ran ran with ⟨ledger, next, opens, stopped, closes, visit⟩
      have stmts := each_establishes Holds checkStmt_extends later body
        (fun s member a _ => one body rfl s member a) stopped
      have closed := kept_extends (closeBlock_keeps (closeBody_ok closes))
      have same : checkFunction ⟨name, returns, params, some body, line, some id⟩ a =
          checkBody ⟨name, returns, params, some body, line, some id⟩ body a := rfl
      rw [same, visit]
      exact fun s member => later s _ _ closed (stmts s member)

theorem checkFunction_skipped (f : Function) (unset : f.id = none) (a : Analysis) :
    checkFunction f a = .done f a := by
  unfold checkFunction
  rw [unset]
  split
  · rename_i given
    cases given
  · rfl

/-! Statements, bodies and items. -/

theorem coerceInit_elaborated {ledger : Ledger} (line : Nat) (declared : Ty) {init : Expr}
    (elaborated : init.Elaborated ledger) :
    (coerceInit line declared init).node.Elaborated ledger ∧
      ∀ source, (coerceInit line declared init).node.ty = some source →
        source = declared ∨ Coercion.into? source declared = none := by
  unfold coerceInit
  split
  · rename_i untyped
    exact ⟨elaborated, fun source typed => by rw [untyped] at typed; cases typed⟩
  · rename_i value typed
    split
    · rename_i coercion coerced
      rcases Expr.coerce_spec typed coerced with ⟨target, nodes⟩
      constructor
      · intro node member known
        rcases nodes node member with inside | converts
        · exact elaborated node inside known
        · exact Expr.converts_checked converts
      · intro source known
        rw [target] at known
        cases known
        exact .inl rfl
    · rename_i refused
      constructor
      · exact elaborated
      · intro source known
        rw [typed] at known
        cases known
        exact .inr refused

theorem checkDeclaration_elaborated {ledger : Ledger} (line : Nat) (decl : Declaration)
    (a : Analysis) (undeclared : decl.id = none)
    (inits : ∀ init ∈ decl.init, init.Elaborated ledger) :
    (Stmt.declare line (checkDeclaration line decl a).1).Elaborated ledger := by
  rcases decl with ⟨name, ty, init, id⟩
  cases undeclared
  unfold checkDeclaration
  split
  · exact ⟨inits, fun _ _ same accepted => by cases same; cases accepted⟩
  · cases init with
    | none => exact ⟨inits, fun _ _ same _ init holds => by cases same; cases holds⟩
    | some init =>
        rcases coerceInit_elaborated line ty (inits init rfl) with ⟨elaborated, converted⟩
        constructor
        · rintro root ⟨⟩
          exact elaborated
        · rintro _ _ ⟨⟩ accepted init ⟨⟩
          exact converted

theorem checkStmt_elaborated (s : Stmt) (fresh : s.Fresh) (a : Analysis) :
    (checkStmt s a).node.Elaborated (checkStmt s a).state.ledger := by
  refine Stmt.elaborated_later (checkStmt_extends s a) ?_
  have markers : ∀ step, (s.root? = none) → (crossing s a step).node.Elaborated a.ledger := by
    intro step bare
    rw [crossing_node]
    exact Stmt.fresh_elaborated a.ledger fresh
  cases s with
  | expr line value =>
      constructor
      · rintro root ⟨⟩
        exact a.ledger.typeExpr_elaborated value fresh
      · rintro _ _ ⟨⟩
  | enterIf line condition =>
      constructor
      · rintro root ⟨⟩
        exact a.ledger.typeExpr_elaborated condition fresh
      · rintro _ _ ⟨⟩
  | declare line decl =>
      rcases decl with ⟨name, ty, init, id⟩
      rcases fresh with ⟨undeclared, inits⟩
      cases init with
      | none => exact checkDeclaration_elaborated line _ a undeclared fun _ holds => by cases holds
      | some init =>
          refine checkDeclaration_elaborated line ⟨name, ty, some _, id⟩ _ undeclared ?_
          rintro _ ⟨⟩
          exact a.ledger.typeExpr_elaborated init (inits init rfl)
  | beginBlock | endBlock => exact markers _ rfl
  | leaveIf line => exact Stmt.fresh_elaborated a.ledger fresh

theorem checkFunction_elaborated (f : Function) (fresh : f.FreshInside) {a : Analysis}
    (ran : (checkFunction f a).stopped = none) :
    (checkFunction f a).node.Elaborated (checkFunction f a).state.ledger := by
  cases given : f.id with
  | none =>
      rw [checkFunction_skipped f given]
      exact fun s member => Stmt.fresh_elaborated a.ledger (Function.fresh_stmts fresh s member)
  | some id =>
      exact checkFunction_establishes (fun ledger s => s.Elaborated ledger)
        (fun _ _ _ extension => Stmt.elaborated_later extension) f
        (fun body provided s member a => checkStmt_elaborated s (fresh.2 body provided s member) a)
        (by rw [given]; rfl) ran

theorem checkItem_elaborated (item : Item) (fresh : Unchecked item) {a : Analysis}
    (ran : (checkItem item a).stopped = none) :
    (checkItem item a).node.Elaborated (checkItem item a).state.ledger := by
  cases item with
  | stmt s => exact checkStmt_elaborated s fresh a
  | function f => exact checkFunction_elaborated f fresh ran

end Analysis

namespace Program

/-- However an analysis that reached its end went, every node that it left with a type obeys its
rule against the final ledger, and no initializer of an accepted declaration is left to be
converted. -/
theorem analyze_elaborates (p : Program) (fresh : p.Fresh) (limit : Nat)
    (ended : (p.analyze (.empty limit)).stopped = none) :
    ∀ stmts ∈ (p.analyze (.empty limit)).node.bodies, ∀ s ∈ stmts,
      s.Elaborated (p.analyze (.empty limit)).state.ledger := by
  have empty : (Analysis.mk (.empty limit) #[]).ledger.Reads [] .start := reads_empty limit
  rcases Analysis.register_numbers p.items fresh empty rfl with ⟨_, nodes, _⟩
  have unchecked := Analysis.numbered_unchecked [] p.items fresh
  rcases analyze_ran ended with ⟨ran, _, visit⟩
  rw [visit]
  have items := Analysis.each_establishes (fun ledger item => item.Elaborated ledger)
    Analysis.checkItem_extends (fun _ _ _ extension => Item.elaborated_later extension) _
    (fun item member _ ran => Analysis.checkItem_elaborated item
      (unchecked item (nodes ▸ member)) ran) ran
  intro stmts body s member
  rcases List.mem_cons.mp body with rfl | function
  · exact items _ (mem_statements.mp member)
  · rcases List.mem_map.mp function with ⟨f, among, rfl⟩
    exact items _ (mem_functions.mp among) s member

def mixed : Program :=
  ⟨[.function ⟨"f", .double, [⟨"a", .double, none⟩], none, 1, none⟩,
    .stmt (.declare 2 ⟨"d", .double,
      some (.call ⟨2, none⟩ (.name ⟨2, none⟩ "f" none) [.int ⟨2, none⟩ 1]), none⟩),
    .stmt (.expr 3 (.binary ⟨3, none⟩ (.arith .add) (.name ⟨3, none⟩ "y" none)
      (.binary ⟨3, none⟩ (.arith .mul) (.int ⟨3, none⟩ 2) (.name ⟨3, none⟩ "d" none))))]⟩

def mixedProduct : Expr :=
  .binary ⟨3, some .double⟩ (.arith .mul)
    (.cast ⟨3, some .double⟩ .intToDouble (.int ⟨3, some .int⟩ 2))
    (.name ⟨3, some .double⟩ "d" (some (.variable ⟨0⟩)))

theorem mixed_elaborates :
    mixed.Fresh ∧ (mixed.analyze (.empty 256)).stopped = none ∧
      (mixed.analyze (.empty 256)).state.diagnostics = #[⟨3, .unknownName "y"⟩] ∧
      mixedProduct.Checked (mixed.analyze (.empty 256)).state.ledger := by
  have fresh : mixed.Fresh := by decide
  have ended : (mixed.analyze (.empty 256)).stopped = none := rfl
  have last :
      (Stmt.expr 3 (.binary ⟨3, none⟩ (.arith .add) (.name ⟨3, none⟩ "y" none)
        mixedProduct)).Elaborated (mixed.analyze (.empty 256)).state.ledger :=
    analyze_elaborates mixed fresh 256 ended _ List.mem_cons_self _
      (List.mem_cons_of_mem _ List.mem_cons_self)
  refine ⟨fresh, ended, rfl, last.nodes _ rfl mixedProduct ?_ rfl⟩
  simp [Expr.nodes, mixedProduct]

end Program
end StackCompiler
