import Mathlib.Data.List.Forall2
import StackCompiler.Proofs.Typing.Passages
import StackCompiler.Proofs.Walk.Logging

/-!
What is reported of a node that has an operand without a type.

Such an operand was reported itself, and a rule that needs its type says nothing more. But what ++,
--, assignments and calls ask of the form of their operands is judged whether or not there is a
type, and so is every argument that has one. So in each run, every check of such a node leaves it
without a type, and it reports something exactly if the node is a misfit.
-/
namespace StackCompiler

namespace Expr

def isPlace : Expr → Bool
  | name _ _ (some (.function _)) => false
  | name .. => true
  | _ => false

/-- An argument that can be passed for a parameter, as far as its type is known. -/
def Suits (arg : Expr) (required : Ty) : Prop :=
  ∀ passed ∈ arg.ty, (Coercion.into? passed required).isSome

/-- Wrong whatever type an operand without one should have had: a store into something else than a
variable, or a call of something else than a function or with arguments that do not suit it. -/
def Misfit (ledger : Ledger) : Expr → Prop
  | unary _ op operand => op.mutates ∧ operand.isPlace = false
  | assign _ _ target _ => target.isPlace = false
  | call _ (name _ _ none) _ => False
  | call _ (name _ _ (some (.function id))) args =>
      ∃ entry, ledger.functionAt? id = some entry ∧ ¬ List.Forall₂ Suits args entry.params
  | call .. => True
  | bool .. | int .. | double .. | name .. | binary .. | cast .. => False

end Expr

/-! The rules one by one. -/

namespace Typing
variable (line : Nat)

theorem shape_problem_place {op : UnaryOp} {operand : Expr} :
    op.shapeProblem? operand = none ↔ ¬ (op.mutates ∧ operand.isPlace = false) := by
  unfold UnaryOp.shapeProblem?
  by_cases mutates : op.mutates = true
  · rw [if_pos mutates]
    cases operand with
    | name note identifier binding =>
        rcases binding with _ | id | id <;> simp [Expr.isPlace, mutates]
    | _ => simp [Expr.isPlace, mutates]
  · simp [mutates]

theorem binary_spares (op : BinaryOp) {left right : Expr}
    (untyped : left.ty = none ∨ right.ty = none) :
    binary line op left right = ⟨.binary ⟨line, none⟩ op left right, []⟩ := by
  unfold binary
  split
  · rename_i leftTyped rightTyped
    simp [leftTyped, rightTyped] at untyped
  · rfl

theorem unary_spares (op : UnaryOp) {operand : Expr} (untyped : operand.ty = none) :
    (unary line op operand).node.ty = none ∧
      ((unary line op operand).diagnostics = [] ↔ ¬ (op.mutates ∧ operand.isPlace = false)) := by
  rw [← shape_problem_place, unary, untyped]
  cases op.shapeProblem? operand <;> simp

theorem assign_spares (op : AssignOp) {target value : Expr}
    (untyped : value.ty = none ∨ target.ty = none) :
    (assign line op target value).node.ty = none ∧
      ((assign line op target value).diagnostics = [] ↔ ¬ target.isPlace = false) := by
  cases target with
  | name note identifier binding =>
      rcases binding with _ | id | id
      · simp [assign, Expr.isPlace]
      · -- Only here the types are looked at.
        have either : note.ty = none ∨ value.ty = none := untyped.symm
        rcases either with none | none
        · simp [assign, Expr.isPlace, none]
        · cases typed : note.ty <;> simp [assign, Expr.isPlace, none, typed]
      · simp [assign, Expr.isPlace]
  | _ => simp [assign, Expr.isPlace]

theorem arguments_spare (callee : String) (position : Nat) (types : List Ty) (args : List Expr)
    (same : args.length = types.length) :
    (arguments line callee position types args).diagnostics = [] ↔
      List.Forall₂ Expr.Suits args types := by
  induction types generalizing position args with
  | nil =>
      rw [List.length_eq_zero_iff.mp same]
      simp [arguments]
  | cons required types ih =>
      cases args with
      | nil => cases same
      | cons arg args =>
          have others := ih (position + 1) args (Nat.succ.inj same)
          rw [List.forall₂_cons, ← others, arguments]
          cases typed : arg.ty with
          | none => simp [Expr.Suits, typed]
          | some passed =>
              cases suits : Coercion.into? passed required <;> simp [Expr.Suits, typed, suits]

theorem callOf_spares (callee : Expr) (args : List Expr) (name : String) (params : List Ty)
    (returns : Ty) :
    (callOf line callee args name params returns).diagnostics = [] ↔
      List.Forall₂ Expr.Suits args params := by
  unfold callOf
  by_cases same : args.length = params.length
  · rw [if_neg (not_not_intro same)]
    exact arguments_spare line name 1 params args same
  · rw [if_pos same]
    simp only [List.cons_ne_nil, false_iff]
    exact fun suits => same suits.length_eq

end Typing

namespace Ledger
variable {ledger : Ledger}

theorem typeCall_spares (note : Note) {callee : Expr} {args : List Expr}
    (callable : ledger.Callable callee)
    (untyped : (∃ arg ∈ args, arg.ty = none) ∨ callee.ty = none) :
    (ledger.typeCall note.line callee args).node.ty = none ∧
      ((ledger.typeCall note.line callee args).diagnostics = [] ↔
        ¬ Expr.Misfit ledger (.call note callee args)) := by
  cases callee with
  | name own identifier binding =>
      rcases binding with _ | id | id
      · simp [typeCall, Expr.Misfit]
      · simp [typeCall, Expr.Misfit]
      · cases known : ledger.functionAt? id with
        | none => simp [typeCall, Expr.Misfit, known]
        | some entry =>
            -- The callee has a type, so what is missing is that of an argument.
            have typed : own.ty.isSome := callable (by rw [known]; rfl)
            have missing : ∃ arg ∈ args, arg.ty = none := by
              rcases untyped with missing | none
              · exact missing
              · rw [Option.isSome_iff_ne_none] at typed
                exact absurd none typed
            simp only [typeCall, known]
            constructor
            · exact (Typing.callOf_untyped note.line _ args _ _ _).mpr (.inl missing)
            · simp [Expr.Misfit, known, Typing.callOf_spares]
  | _ => simp [typeCall, Expr.Misfit]

/-- A check of a node that has an operand without a type leaves the node without one and reports
something exactly if the node is a misfit. -/
theorem typeNode_spares {e : Expr} (callable : ∀ operand ∈ e.operands, ledger.Callable operand)
    (untyped : ∃ operand ∈ e.operands, operand.ty = none) :
    (ledger.typeNode e).node.ty = none ∧
      ((ledger.typeNode e).diagnostics = [] ↔ ¬ e.Misfit ledger) := by
  cases e with
  | bool | int | double | name => simp [Expr.operands] at untyped
  | binary note op left right =>
      have operand : left.ty = none ∨ right.ty = none := by simpa [Expr.operands] using untyped
      simp [typeNode, Typing.binary_spares note.line op operand, Expr.Misfit]
  | unary note op operand =>
      exact Typing.unary_spares note.line op (by simpa [Expr.operands] using untyped)
  | assign note op target value =>
      exact Typing.assign_spares note.line op (by simpa [Expr.operands] using untyped)
  | call note callee args =>
      have own : ledger.Callable callee := callable callee (by simp [Expr.operands])
      exact typeCall_spares note own
        (by simpa [Expr.operands, or_and_right, exists_or] using untyped)
  | cast note kind operand =>
      have none : operand.ty = none := by simpa [Expr.operands] using untyped
      simp [typeNode, Typing.cast, none, Expr.Misfit]

theorem typeNode_callable {e : Expr} (unbound : e.binding? = none) :
    ledger.Callable (ledger.typeNode e).node := by
  cases e with
  | bool | int | double => trivial
  | name note identifier binding =>
      rcases unbound with rfl
      exact typeName_callable ..
  | binary note op left right =>
      apply callable_of_erased
      simp only [typeNode, (Typing.binary_erased ..).1, Expr.isName]
  | unary note op operand =>
      apply callable_of_erased
      simp only [typeNode, (Typing.unary_erased ..).1, Expr.isName]
  | assign note op target value =>
      apply callable_of_erased
      simp only [typeNode, (Typing.assign_erased ..).1, Expr.isName]
  | call note callee args =>
      apply callable_of_erased
      simp only [typeNode, (typeCall_erased ..).1, Expr.isName]
  | cast note kind operand => trivial

end Ledger

namespace Analysis

/-- A check that, where an operand had no type, leaves the node without one and reports something
exactly if the node is a misfit. -/
def Spares (check : Leaving Analysis) : Prop :=
  (∃ operand ∈ check.given.operands, operand.ty = none) → check.left.ty = none ∧
    ∃ found, check.after = check.before.report found ∧
      (found = [] ↔ ¬ check.given.Misfit check.before.ledger)

def Sparing (l : Logged Analysis) : Prop := ∀ check ∈ l.leavings, Spares check

theorem typing_quiet : typing.logged.Quiet where
  enterExpr _ _ := rfl
  betweenExpr _ _ := rfl

theorem leaveExpr_spares {ledger : Ledger} (e : Expr) (parts : e.Over ledger.Callable)
    (l : Logged Analysis) (sparing : l.state.ledger = ledger ∧ Sparing l) :
    (typing.logged.leaveExpr e l).Ends (fun l => l.state.ledger = ledger ∧
      Sparing l) ledger.Callable := by
  -- The ledger stays the same throughout an expression.
  rcases l with ⟨a, leavings⟩
  rcases sparing with ⟨rfl, checks⟩
  have own :
    Spares ⟨a, e, a.report (a.ledger.typeNode e).diagnostics, (a.ledger.typeNode e).node⟩ := by
    intro untyped
    rcases Ledger.typeNode_spares parts.2 untyped with ⟨none, quiet⟩
    exact ⟨none, _, rfl, quiet⟩
  constructor
  · exact ⟨rfl, List.forall_mem_append.mpr ⟨checks, List.forall_mem_singleton.mpr own⟩⟩
  · exact fun _ => Ledger.typeNode_callable parts.1

theorem enterStmt_same (s : Stmt) (a : Analysis) : (typing.enterStmt s a).node = s := by
  cases s with
  | beginBlock | endBlock => exact crossing_node ..
  | _ => rfl

theorem walkStmt_spares (depth : Nat) {s : Stmt} (fresh : s.Fresh) {l : Logged Analysis}
    (start : Sparing l) :
    Sparing (typing.logged.walkStmt depth s l).state := by
  have roots : ∀ root ∈ s.root?, root.Fresh := by
    cases s with
    | expr | enterIf => exact fun root same => Option.some.inj same ▸ fresh
    | declare line decl => exact fresh.2
    | beginBlock | endBlock | leaveIf => exact fun root absent => by cases absent
  have entering : ∀ s l, Sparing l → (typing.logged.enterStmt s l).Ends Sparing (· = s) :=
    fun s l checks => ⟨checks, fun _ => enterStmt_same s l.state⟩
  have leaving : ∀ s l, Sparing l → Sparing (typing.logged.leaveStmt s l).state :=
    fun s l checks => checks
  apply Editor.walkStmt_keeps entering leaving _ start
  intro root member l checks
  exact (Editor.walkExpr_ends typing_quiet leaveExpr_spares depth (roots root member)
    ⟨rfl, checks⟩).state.2

/-- The checks that are made of the statements from `a` on, also if one of them stops the
analysis. -/
def checks (stmts : List Stmt) (a : Analysis) : List (Leaving Analysis) :=
  (typing.logged.walkStmts (heightOfAll stmts) stmts (.start a)).state.leavings

/-- The walk that is logged checks the statements. -/
theorem logged_checks {stmts : List Stmt} (fresh : ∀ s ∈ stmts, s.Fresh) (a : Analysis) :
    (typing.logged.walkStmts (heightOfAll stmts) stmts (.start a)).mapState Logged.state =
      (Visit.each checkStmt stmts a).mapStopped Halt.failed := by
  rw [← walkStmts_checks fresh]
  exact Visit.each_mapState _ (Editor.walkStmt_projects (Editor.logged_projects typing) _) stmts
    (.start a)

theorem checks_spare {stmts : List Stmt} (fresh : ∀ s ∈ stmts, s.Fresh) (a : Analysis) :
    ∀ check ∈ checks stmts a, Spares check := by
  have one : ∀ s ∈ stmts, ∀ l, Sparing l →
      (typing.logged.walkStmt (heightOfAll stmts) s l).Ends Sparing fun _ => True :=
    fun s member l start => ⟨walkStmt_spares _ (fresh s member) start, fun _ => trivial⟩
  have empty : Sparing (.start a) := List.forall_mem_nil _
  exact (Visit.each_ends one empty).state

/-- A body is checked behind its parameters, unless its function was not registered. -/
def bodyChecks (f : Function) (a : Analysis) : List (Leaving Analysis) :=
  match f.body, f.id, a.ledger.openBlock with
  | some body, some _, .ok ledger =>
      checks body (declareParams f.line f.params ⟨ledger, a.diagnostics⟩).2
  | _, _, _ => []

def itemChecks : Item → Analysis → List (Leaving Analysis)
  | .function f, a => bodyChecks f a
  | .stmt s, a => checks [s] a

/-- Items behind one that stops the analysis are not checked. -/
def itemsChecks : List Item → Analysis → List (Leaving Analysis)
  | [], _ => []
  | item :: rest, a => itemChecks item a ++
      if (checkItem item a).stopped.isNone then itemsChecks rest (checkItem item a).state else []

theorem itemChecks_spare (item : Item) (fresh : Unchecked item) (a : Analysis) :
    ∀ check ∈ itemChecks item a, Spares check := by
  cases item with
  | stmt s => exact checks_spare (List.forall_mem_singleton.mpr fresh) a
  | function f =>
      rw [itemChecks, bodyChecks]
      split
      · rename_i body _ _ provided _ _
        exact checks_spare (fresh.2 body provided) _
      · exact List.forall_mem_nil _

theorem itemsChecks_spare (items : List Item) (fresh : ∀ item ∈ items, Unchecked item)
    (a : Analysis) :
    ∀ check ∈ itemsChecks items a, Spares check := by
  induction items generalizing a with
  | nil => exact List.forall_mem_nil _
  | cons item rest ih =>
      rcases List.forall_mem_cons.mp fresh with ⟨first, others⟩
      rw [itemsChecks, List.forall_mem_append]
      constructor
      · exact itemChecks_spare item first a
      · split
        · exact ih others _
        · exact List.forall_mem_nil _

end Analysis

namespace Program

/-- The checks of expression nodes that an analysis makes, in order. -/
def checks (p : Program) (ledger : Ledger) : List (Leaving Analysis) :=
  let registered := Visit.each Analysis.registerItem p.items ⟨ledger, #[]⟩
  Analysis.itemsChecks registered.node registered.state

/-- However an analysis ends, each of its checks of a node that has an operand without a type leaves
the node without one too, and reports something exactly if the node is a misfit. -/
theorem analyze_spares (p : Program) (fresh : p.Fresh) (limit : Nat) :
    ∀ check ∈ p.checks (.empty limit),
    (∃ operand ∈ check.given.operands, operand.ty = none) →
      check.left.ty = none ∧ ∃ found, check.after = check.before.report found ∧
        (found = [] ↔ ¬ check.given.Misfit check.before.ledger) := by
  have empty : (Analysis.mk (.empty limit) #[]).ledger.Reads [] .start := reads_empty limit
  rcases Analysis.register_numbers p.items fresh empty rfl with ⟨_, nodes, _⟩
  have unchecked := Analysis.numbered_unchecked [] p.items fresh
  exact Analysis.itemsChecks_spare _ (fun item member => unchecked item (nodes ▸ member)) _

def stray (op : UnaryOp) : Program :=
  ⟨[.stmt (.expr 1 (.unary ⟨1, none⟩ op
    (.unary ⟨1, none⟩ .negate (.name ⟨1, none⟩ "missing" none))))]⟩

def strayCheck (op : UnaryOp) : Leaving Analysis :=
  let negation : Expr := .unary ⟨1, none⟩ .negate (.name ⟨1, none⟩ "missing" none)
  let whole : Expr := .unary ⟨1, none⟩ op negation
  let before : Analysis := ⟨.empty 256, #[⟨1, .unknownName "missing"⟩]⟩
  ⟨before, whole, before.report (if op.mutates then [⟨1, .computedOperand op⟩] else []), whole⟩

theorem stray_checks (op : UnaryOp) : strayCheck op ∈ (stray op).checks (.empty 256) := by
  cases op <;> exact List.mem_of_getElem? (i := 2) rfl

/-- What cannot be negated is not reported again where it is to be negated once more. -/
theorem stray_spared :
    (stray .negate).Fresh ∧ (strayCheck .negate).left.ty = none ∧
      (strayCheck .negate).after = (strayCheck .negate).before := by
  have fresh : (stray .negate).Fresh := by decide
  have untyped : ∃ operand ∈ (strayCheck .negate).given.operands, operand.ty = none :=
    ⟨_, List.mem_singleton_self _, rfl⟩
  rcases analyze_spares (stray .negate) fresh 256 _ (stray_checks .negate) untyped
    with ⟨none, found, after, quiet⟩
  have silent : found = [] := quiet.mpr (by simp [strayCheck, Expr.Misfit, UnaryOp.mutates])
  rw [silent, Analysis.report_nil] at after
  exact ⟨fresh, none, after⟩

/-- But it is reported again where it is to be incremented. -/
theorem stray_reported :
    (stray .increment).Fresh ∧
      strayCheck .increment ∈ (stray .increment).checks (.empty 256) ∧
      (∃ operand ∈ (strayCheck .increment).given.operands, operand.ty = none) ∧
      (strayCheck .increment).after.diagnostics ≠ (strayCheck .increment).before.diagnostics ∧
      ((stray .increment).analyze (.empty 256)).state.diagnostics =
        #[⟨1, .unknownName "missing"⟩, ⟨1, .computedOperand .increment⟩] :=
  ⟨by decide, stray_checks .increment, ⟨_, List.mem_singleton_self _, rfl⟩, by decide, rfl⟩

end Program
end StackCompiler
