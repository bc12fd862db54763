import StackCompiler.Proofs.Language.Nodes
import StackCompiler.Proofs.Walk.Watching

/-!
The calls of `leaveExpr` that an editing walk makes.

The record kept here is of the calls themselves: the state and the node that the hook was given and
what it made of them. To know something of every call it is enough to know it of a single one whose
operands were left by the same hook; the walk does the rest (`walkExpr_ends`), also where it stops.
-/
namespace StackCompiler

variable {σ ε δ α β : Type}

structure Leaving (σ : Type) where
  before : σ
  given : Expr
  after : σ
  left : Expr

structure Logged (σ : Type) where
  state : σ
  leavings : List (Leaving σ)

namespace Logged

def start (state : σ) : Logged σ := ⟨state, []⟩

def stay (l : Logged σ) (after : σ) : Logged σ := ⟨after, l.leavings⟩

def leave (l : Logged σ) (given left : Expr) (after : σ) : Logged σ :=
  ⟨after, l.leavings ++ [⟨l.state, given, after, left⟩]⟩

end Logged

namespace Editor

def logged (v : Editor σ ε) : Editor (Logged σ) ε where
  enterExpr e l := (v.enterExpr e l.state).mapState l.stay
  betweenExpr e l := (v.betweenExpr e l.state).mapState l.stay
  leaveExpr e l :=
    let visit := v.leaveExpr e l.state
    visit.mapState (l.leave e visit.node)
  enterStmt s l := (v.enterStmt s l.state).mapState l.stay
  leaveStmt s l := (v.leaveStmt s l.state).mapState l.stay

/-- Logging does not interfere. -/
theorem logged_projects (v : Editor σ ε) : v.logged.Projects Logged.state v where
  enterExpr _ _ := rfl
  betweenExpr _ _ := rfl
  leaveExpr _ _ := rfl
  enterStmt _ _ := rfl
  leaveStmt _ _ := rfl

end Editor

namespace Visit

/-- The visit ends in a state of the one property, and with a node of the other if it did not
stop. -/
structure Ends (inv : σ → Prop) (post : α → Prop) (visit : Visit σ ε α) : Prop where
  state : inv visit.state
  node : visit.stopped = none → post visit.node

section
variable {inv : σ → Prop} {mid post : α → Prop} {visit : Visit σ ε α}

theorem ends_stop (node : α) {state : σ} (reason : ε) (held : inv state) :
    (stop node state reason).Ends inv post :=
  ⟨held, fun ran => by cases ran⟩

theorem Ends.map {f : α → β} {made : β → Prop} (ends : visit.Ends inv mid)
    (makes : ∀ node, mid node → made (f node)) :
    (visit.map f).Ends inv made :=
  ⟨ends.state, fun ran => makes _ (ends.node ran)⟩

theorem Ends.mapStopped {f : ε → δ} (ends : visit.Ends inv post) :
    (visit.mapStopped f).Ends inv post :=
  ⟨ends.state, fun ran => ends.node (Option.map_eq_none_iff.mp ran)⟩

theorem Ends.andThen {next : α → σ → Visit σ ε α} (ends : visit.Ends inv mid)
    (rest : ∀ node state, mid node → inv state → (next node state).Ends inv post) :
    (visit.andThen next).Ends inv post := by
  rcases visit with ⟨node, state, _ | reason⟩
  · exact rest node state (ends.node rfl) ends.state
  · exact ends_stop node reason ends.state

theorem each_ends {f : α → σ → Visit σ ε α} {members : List α}
    (one : ∀ member ∈ members, ∀ state, inv state → (f member state).Ends inv post)
    {state : σ} (start : inv state) :
    (each f members state).Ends inv fun nodes => ∀ node ∈ nodes, post node := by
  induction members generalizing state with
  | nil => exact ⟨start, fun _ => List.forall_mem_nil _⟩
  | cons member rest ih =>
      rcases List.forall_mem_cons.mp one with ⟨first, others⟩
      have here := first state start
      rw [each_cons]
      rcases visit : f member state with ⟨node, next, _ | reason⟩
      · rw [visit] at here
        exact (ih others here.state).map fun nodes hold =>
          List.forall_mem_cons.mpr ⟨here.node rfl, hold⟩
      · rw [visit] at here
        exact ends_stop (node :: rest) reason here.state

end

end Visit

namespace Expr

def operands : Expr → List Expr
  | bool .. | int .. | double .. | name .. => []
  | binary _ _ left right => [left, right]
  | unary _ _ operand | cast _ _ operand => [operand]
  | assign _ _ target value => [value, target]
  | call _ callee args => args ++ [callee]

def binding? : Expr → Option Binding
  | name _ _ binding => binding
  | _ => none

theorem fresh_unbound {e : Expr} (fresh : e.Fresh) : e.binding? = none := by
  cases e with
  | name note identifier binding => exact (fresh _ (self_mem_nodes _)).2
  | _ => rfl

def Over (post : Expr → Prop) (e : Expr) : Prop :=
  e.binding? = none ∧ ∀ operand ∈ e.operands, post operand

section
variable {visit : Expr → σ → Visit σ ε Expr} {inv : σ → Prop} {post : Expr → Prop}
  (one : ∀ e, e.Fresh → ∀ state, inv state → (visit e state).Ends inv post)
include one

theorem visit_paired {early late : Expr} {around : Expr → Expr → Expr} {state : σ}
    (second : ∀ node next,
      (around node late).visitSecond visit next = (visit late next).map (around node))
    (made : ∀ node other, post node → post other → Over post (around node other))
    (earlyFresh : early.Fresh) (lateFresh : late.Fresh) (start : inv state) :
    (((visit early state).map (around · late)).andThen fun e next =>
      e.visitSecond visit next).Ends inv (Over post) := by
  have first : ((visit early state).map (around · late)).Ends inv
      fun m => ∃ node, m = around node late ∧ post node :=
    (one early earlyFresh state start).map fun node held => ⟨node, rfl, held⟩
  apply first.andThen
  rintro _ next ⟨node, rfl, held⟩ reached
  rw [second]
  exact (one late lateFresh next reached).map (made node · held)

theorem visit_call {note : Note} {callee : Expr} {args : List Expr} {state : σ}
    (argsFresh : ∀ arg ∈ args, arg.Fresh) (calleeFresh : callee.Fresh) (start : inv state) :
    ((call note callee args).visitFirst visit state).Ends inv fun m =>
      ∃ callee args, m = call note callee args ∧ (∀ arg ∈ args, post arg) ∧ post callee := by
  have passed := Visit.each_ends (fun arg member => one arg (argsFresh arg member)) start
  rw [visitFirst]
  rcases visited : Visit.each visit args state with ⟨args, next, _ | reason⟩
  · rw [visited] at passed
    exact (one callee calleeFresh next passed.state).map fun node held =>
      ⟨node, args, rfl, passed.node rfl, held⟩
  · rw [visited] at passed
    exact Visit.ends_stop (call note callee args) reason passed.state

theorem visit_operands {e : Expr} (fresh : e.Fresh) {state : σ} (start : inv state) :
    ((e.visitFirst visit state).andThen fun e state => e.visitSecond visit state).Ends inv
      (Over post) := by
  cases e with
  | bool | int | double => exact ⟨start, fun _ => ⟨rfl, List.forall_mem_nil _⟩⟩
  | name => exact ⟨start, fun _ => ⟨fresh_unbound fresh, List.forall_mem_nil _⟩⟩
  | binary note op left right =>
      rcases (fresh_binary _).mp fresh with ⟨leftFresh, rightFresh, _⟩
      have made (left right : Expr) (held : post left) (after : post right) :
          Over post (binary note op left right) :=
        ⟨rfl, by simp [operands, held, after]⟩
      exact visit_paired one (fun _ _ => rfl) made leftFresh rightFresh start
  | assign note op target value =>
      rcases (fresh_assign _).mp fresh with ⟨valueFresh, targetFresh, _⟩
      have made (value target : Expr) (held : post value) (after : post target) :
          Over post (assign note op target value) :=
        ⟨rfl, by simp [operands, held, after]⟩
      exact visit_paired one (fun _ _ => rfl) made valueFresh targetFresh start
  | unary note op operand =>
      have only : ((visit operand state).map (unary note op ·)).Ends inv
          fun m => ∃ operand, m = unary note op operand ∧ post operand :=
        (one operand ((fresh_unary _).mp fresh).1 state start).map fun node held =>
          ⟨node, rfl, held⟩
      apply only.andThen
      rintro _ next ⟨node, rfl, held⟩ reached
      exact ⟨reached, fun _ => ⟨rfl, List.forall_mem_singleton.mpr held⟩⟩
  | call note callee args =>
      rcases (fresh_call _).mp fresh with ⟨argsFresh, calleeFresh, _⟩
      apply (visit_call one argsFresh calleeFresh start).andThen
      rintro _ next ⟨callee, args, rfl, held, after⟩ reached
      exact ⟨reached, fun _ =>
        ⟨rfl, List.forall_mem_append.mpr ⟨held, List.forall_mem_singleton.mpr after⟩⟩⟩
  | cast => exact absurd fresh (not_fresh_cast _)

end

end Expr

namespace Stmt

theorem visitRoot_ends {visit : Expr → σ → Visit σ ε Expr} {inv : σ → Prop} {s : Stmt}
    (one : ∀ root ∈ s.root?, ∀ state, inv state → inv (visit root state).state) {state : σ}
    (start : inv state) :
    inv (s.visitRoot visit state).state := by
  cases s with
  | expr line value => exact one value rfl state start
  | enterIf line condition => exact one condition rfl state start
  | beginBlock | endBlock | leaveIf => exact start
  | declare line decl =>
      rcases decl with ⟨name, ty, _ | init, id⟩
      · exact start
      · exact one init rfl state start

end Stmt

namespace Editor
variable {v : Editor σ ε} {inv : σ → Prop}

structure Quiet (v : Editor σ ε) : Prop where
  enterExpr : ∀ e state, v.enterExpr e state = .done e state
  betweenExpr : ∀ e state, v.betweenExpr e state = .done e state

/-- What `leaveExpr` makes of a node whose operands it has left, the walk makes of a whole
expression. -/
theorem walkExpr_ends {post : Expr → Prop} (quiet : v.Quiet)
    (leaving : ∀ e, e.Over post → ∀ state, inv state → (v.leaveExpr e state).Ends inv post)
    (depth : Nat) {e : Expr} (fresh : e.Fresh) {state : σ} (start : inv state) :
    (v.walkExpr depth e state).Ends inv post := by
  induction depth generalizing e state with
  | zero => exact Visit.ends_stop e Halt.exhausted start
  | succ depth ih =>
      rw [walkExpr_steps quiet.enterExpr quiet.betweenExpr]
      have operands := Expr.visit_operands (fun e fresh state held => ih fresh held) fresh start
      exact operands.andThen fun node next parts reached =>
        (leaving node parts next reached).mapStopped

theorem walkStmt_keeps {depth : Nat}
    (entering : ∀ s state, inv state → (v.enterStmt s state).Ends inv (· = s))
    (leaving : ∀ s state, inv state → inv (v.leaveStmt s state).state) {s : Stmt}
    (walks : ∀ root ∈ s.root?, ∀ state, inv state → inv (v.walkExpr depth root state).state)
    {state : σ} (start : inv state) : inv (v.walkStmt depth s state).state := by
  have entered : ((v.enterStmt s state).mapStopped Halt.failed).Ends inv (· = s) :=
    (entering s state start).mapStopped
  have whole : (v.walkStmt depth s state).Ends inv fun _ => True := by
    apply entered.andThen
    rintro _ next rfl reached
    have rooted : (Stmt.visitRoot (v.walkExpr depth) _ next).Ends inv fun _ => True :=
      ⟨Stmt.visitRoot_ends walks reached, fun _ => trivial⟩
    apply rooted.andThen
    intro s last _ held
    have left : (v.leaveStmt s last).Ends inv fun _ => True :=
      ⟨leaving s last held, fun _ => trivial⟩
    exact left.mapStopped
  exact whole.state

end Editor

end StackCompiler
