import StackCompiler.Walk.Editing

/-!
Watching an editing walk.

A walk whose hooks only look at a part of the state is a walk over that part, so adding a record to
the state changes nothing else. The record kept here is of passages: for every expression that was
entered and left, the states before its `enterExpr` and after its `leaveExpr`, and the node as the
walk left it.
-/
namespace StackCompiler

variable {σ τ ε δ α β : Type}

namespace Visit

def mapState (part : σ → τ) (visit : Visit σ ε α) : Visit τ ε α :=
  ⟨visit.node, part visit.state, visit.stopped⟩

variable (part : σ → τ)

@[simp] theorem done_mapState (node : α) (state : σ) :
    (done node state : Visit σ ε α).mapState part = done node (part state) := rfl

@[simp] theorem map_mapState (f : α → β) (visit : Visit σ ε α) :
    (visit.map f).mapState part = (visit.mapState part).map f := rfl

@[simp] theorem mapStopped_mapState (f : ε → δ) (visit : Visit σ ε α) :
    (visit.mapStopped f).mapState part = (visit.mapState part).mapStopped f := rfl

theorem andThen_mapState {next : α → σ → Visit σ ε α} {seen : α → τ → Visit τ ε α}
    (one : ∀ node state, (next node state).mapState part = seen node (part state))
    (visit : Visit σ ε α) :
    (visit.andThen next).mapState part = (visit.mapState part).andThen seen := by
  rcases visit with ⟨node, state, _ | reason⟩
  · exact one node state
  · rfl

theorem each_mapState {f : α → σ → Visit σ ε α} {seen : α → τ → Visit τ ε α}
    (one : ∀ member state, (f member state).mapState part = seen member (part state))
    (members : List α) (state : σ) :
    (each f members state).mapState part = each seen members (part state) := by
  induction members generalizing state with
  | nil => rfl
  | cons member rest ih =>
      have first := one member state
      rw [each_cons, each_cons, ← first]
      rcases f member state with ⟨node, next, _ | reason⟩
      · exact congrArg (map (node :: ·)) (ih next)
      · rfl

@[simp] theorem done_andThen (node : α) (state : σ) (next : α → σ → Visit σ ε α) :
    (done node state).andThen next = next node state := rfl

@[simp] theorem done_mapStopped (f : ε → δ) (node : α) (state : σ) :
    (done node state).mapStopped f = done node state := rfl

end Visit

theorem Expr.visitFirst_mapState {part : σ → τ} {visit : Expr → σ → Visit σ ε Expr}
    {seen : Expr → τ → Visit τ ε Expr}
    (one : ∀ e state, (visit e state).mapState part = seen e (part state))
    (e : Expr) (state : σ) :
    (e.visitFirst visit state).mapState part = e.visitFirst seen (part state) := by
  cases e with
  | bool | int | double | name => rfl
  | binary note op left right => simp only [visitFirst, Visit.map_mapState, one]
  | unary note op operand => simp only [visitFirst, Visit.map_mapState, one]
  | assign note op target value => simp only [visitFirst, Visit.map_mapState, one]
  | cast note kind operand => simp only [visitFirst, Visit.map_mapState, one]
  | call note callee args =>
      have passed := Visit.each_mapState part one args state
      simp only [visitFirst]
      rw [← passed]
      rcases Visit.each visit args state with ⟨args, next, _ | reason⟩
      · exact congrArg (Visit.map (call note · args)) (one callee next)
      · rfl

theorem Expr.visitSecond_mapState {part : σ → τ} {visit : Expr → σ → Visit σ ε Expr}
    {seen : Expr → τ → Visit τ ε Expr}
    (one : ∀ e state, (visit e state).mapState part = seen e (part state))
    (e : Expr) (state : σ) :
    (e.visitSecond visit state).mapState part = e.visitSecond seen (part state) := by
  cases e with
  | binary note op left right => simp only [visitSecond, Visit.map_mapState, one]
  | assign note op target value => simp only [visitSecond, Visit.map_mapState, one]
  | bool | int | double | name | unary | cast | call => rfl

theorem Stmt.visitRoot_mapState {part : σ → τ} {visit : Expr → σ → Visit σ ε Expr}
    {seen : Expr → τ → Visit τ ε Expr}
    (one : ∀ e state, (visit e state).mapState part = seen e (part state))
    (s : Stmt) (state : σ) :
    (s.visitRoot visit state).mapState part = s.visitRoot seen (part state) := by
  cases s with
  | expr line value => simp only [visitRoot, Visit.map_mapState, one]
  | enterIf line condition => simp only [visitRoot, Visit.map_mapState, one]
  | declare line decl =>
      rcases decl with ⟨name, ty, _ | init, id⟩
      · rfl
      · simp only [visitRoot, Visit.map_mapState, one]
  | beginBlock | endBlock | leaveIf => rfl

namespace Editor

/-- The hooks of `v` do to a part of the state what those of `seen` do to it. -/
structure Projects (v : Editor σ ε) (part : σ → τ) (seen : Editor τ ε) : Prop where
  enterExpr : ∀ e state, (v.enterExpr e state).mapState part = seen.enterExpr e (part state)
  betweenExpr : ∀ e state, (v.betweenExpr e state).mapState part = seen.betweenExpr e (part state)
  leaveExpr : ∀ e state, (v.leaveExpr e state).mapState part = seen.leaveExpr e (part state)
  enterStmt : ∀ s state, (v.enterStmt s state).mapState part = seen.enterStmt s (part state)
  leaveStmt : ∀ s state, (v.leaveStmt s state).mapState part = seen.leaveStmt s (part state)

section
variable {v : Editor σ ε} {part : σ → τ} {seen : Editor τ ε} (projects : v.Projects part seen)
include projects

theorem walkExpr_projects (depth : Nat) (e : Expr) (state : σ) :
    (v.walkExpr depth e state).mapState part = seen.walkExpr depth e (part state) := by
  induction depth generalizing e state with
  | zero => rfl
  | succ depth ih =>
      have leaving : ∀ e state, ((v.leaveExpr e state).mapStopped Halt.failed).mapState part =
          (seen.leaveExpr e (part state)).mapStopped Halt.failed := fun e state => by
        rw [Visit.mapStopped_mapState, projects.leaveExpr]
      rw [walkExpr, walkExpr, ← projects.enterExpr, ← Visit.mapStopped_mapState]
      refine Visit.andThen_mapState part (fun e state => ?_) _
      rw [← Expr.visitFirst_mapState ih]
      refine Visit.andThen_mapState part (fun e state => ?_) _
      by_cases paired : e.isPaired = true
      · simp only [if_pos paired]
        rw [← projects.betweenExpr, ← Visit.mapStopped_mapState]
        refine Visit.andThen_mapState part (fun e state => ?_) _
        rw [← Expr.visitSecond_mapState ih]
        exact Visit.andThen_mapState part leaving _
      · simp only [if_neg paired]
        exact leaving e state

theorem walkStmt_projects (depth : Nat) (s : Stmt) (state : σ) :
    (v.walkStmt depth s state).mapState part = seen.walkStmt depth s (part state) := by
  rw [walkStmt, walkStmt, ← projects.enterStmt, ← Visit.mapStopped_mapState]
  refine Visit.andThen_mapState part (fun s state => ?_) _
  rw [← Stmt.visitRoot_mapState (walkExpr_projects projects depth)]
  refine Visit.andThen_mapState part (fun s state => ?_) _
  rw [Visit.mapStopped_mapState, projects.leaveStmt]

end

end Editor

namespace Editor

/-- An editor that leaves the node alone until its operands are visited takes the node in two
steps. -/
theorem walkExpr_steps {v : Editor σ ε} {enter : σ → σ}
    (entering : ∀ e state, v.enterExpr e state = .done e (enter state))
    (between : ∀ e state, v.betweenExpr e state = .done e state) (depth : Nat) (e : Expr)
    (state : σ) :
    v.walkExpr (depth + 1) e state =
      ((e.visitFirst (v.walkExpr depth) (enter state)).andThen fun e state =>
        e.visitSecond (v.walkExpr depth) state).andThen fun e state =>
        (v.leaveExpr e state).mapStopped Halt.failed := by
  rw [walkExpr, entering, Visit.done_mapStopped, Visit.done_andThen]
  rcases e.visitFirst (v.walkExpr depth) (enter state) with ⟨middle, next, _ | reason⟩
  · simp only [Visit.andThen, between, Visit.done_mapStopped]
    by_cases paired : middle.isPaired = true
    · rw [if_pos paired]
      rfl
    · rw [if_neg paired]
      cases middle with
      | binary | assign => exact absurd rfl paired
      | _ => rfl
  · rfl

end Editor

/-- An expression that a walk entered and left. -/
structure Passage (σ : Type) where
  before : σ
  after : σ
  node : Expr

/-- A state, the states at which the expressions still open were entered, and the passages so
far. -/
structure Watched (σ : Type) where
  state : σ
  entered : List σ
  passages : List (Passage σ)

namespace Watched

def start (state : σ) : Watched σ := ⟨state, [], []⟩

def enter (w : Watched σ) (after : σ) : Watched σ :=
  ⟨after, w.state :: w.entered, w.passages⟩

def stay (w : Watched σ) (after : σ) : Watched σ := ⟨after, w.entered, w.passages⟩

def leave (w : Watched σ) (node : Expr) (after : σ) : Watched σ :=
  match w.entered with
  | [] => ⟨after, [], w.passages⟩
  | before :: outer => ⟨after, outer, w.passages ++ [⟨before, after, node⟩]⟩

@[simp] theorem leave_state (w : Watched σ) (node : Expr) (after : σ) :
    (w.leave node after).state = after := by
  unfold leave
  split <;> rfl

end Watched

namespace Editor

def watched (v : Editor σ ε) : Editor (Watched σ) ε where
  enterExpr e w := (v.enterExpr e w.state).mapState w.enter
  betweenExpr e w := (v.betweenExpr e w.state).mapState w.stay
  leaveExpr e w :=
    let visit := v.leaveExpr e w.state
    visit.mapState (w.leave visit.node)
  enterStmt s w := (v.enterStmt s w.state).mapState w.stay
  leaveStmt s w := (v.leaveStmt s w.state).mapState w.stay

/-- Watching does not interfere. -/
theorem watched_projects (v : Editor σ ε) : v.watched.Projects Watched.state v where
  enterExpr _ _ := rfl
  betweenExpr _ _ := rfl
  leaveExpr e w := by simp [watched, Visit.mapState]
  enterStmt _ _ := rfl
  leaveStmt _ _ := rfl

end Editor
end StackCompiler
