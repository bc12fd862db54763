import StackCompiler.Proofs.Walk.Calls

/-!
An editing walk as a dialogue.

What a walk does between two calls of its hooks does not depend on the editor. So the walk can be
told without one: it asks a call and, once it knows which node the hook left, goes on to the next;
if the hook failed, it says how the tree is put together. Any editor can hold the dialogue, and the
walk is what becomes of it (`walkStmts_dialogue`). What is true of a dialogue for all answers is
then true of the walks of all editors.
-/
namespace StackCompiler

variable {σ ε α β : Type}

namespace Call

abbrev Node : Call → Type
  | enterExpr _ | betweenExpr _ | leaveExpr _ => Expr
  | enterStmt _ | leaveStmt _ => Stmt

def node : (call : Call) → call.Node
  | enterExpr e | betweenExpr e | leaveExpr e => e
  | enterStmt s | leaveStmt s => s

end Call

namespace Editor

def answer (v : Editor σ ε) : (call : Call) → σ → Visit σ ε call.Node
  | .enterExpr e => v.enterExpr e
  | .betweenExpr e => v.betweenExpr e
  | .leaveExpr e => v.leaveExpr e
  | .enterStmt s => v.enterStmt s
  | .leaveStmt s => v.leaveStmt s

def answering (reply : (call : Call) → σ → Visit σ ε call.Node) : Editor σ ε where
  enterExpr e := reply (.enterExpr e)
  betweenExpr e := reply (.betweenExpr e)
  leaveExpr e := reply (.leaveExpr e)
  enterStmt s := reply (.enterStmt s)
  leaveStmt s := reply (.leaveStmt s)

@[simp] theorem answer_answering (reply : (call : Call) → σ → Visit σ ε call.Node) (call : Call) :
    (answering reply).answer call = reply call := by
  cases call <;> rfl

end Editor

/-- What is left to do of a walk: nothing, nothing for want of depth, or a call. -/
inductive Dialogue (α : Type)
  | ended (node : α)
  | spent (node : α)
  | ask (call : Call) (resume : call.Node → Dialogue α) (abandon : call.Node → α)

namespace Dialogue

def asking (call : Call) : Dialogue call.Node := ask call ended id

/-- Goes on from the node at which a dialogue is over. Where it ends before that, `early` puts the
tree together. -/
def follow (d : Dialogue α) (early : α → β) (late : α → Dialogue β) : Dialogue β :=
  match d with
  | ended node => late node
  | spent node => spent (early node)
  | ask call resume abandon =>
      ask call (fun left => (resume left).follow early late) fun left => early (abandon left)

def map (f : α → β) (d : Dialogue α) : Dialogue β := d.follow f fun node => ended (f node)

def andThen (d : Dialogue α) (next : α → Dialogue α) : Dialogue α := d.follow id next

def each (f : α → Dialogue α) : List α → Dialogue (List α)
  | [] => ended []
  | member :: rest => (f member).follow (· :: rest) fun node => (each f rest).map (node :: ·)

/-- Holds the dialogue with an editor. -/
def run (v : Editor σ ε) (d : Dialogue α) (state : σ) : Visit σ (Halt ε) α :=
  match d with
  | ended node => .done node state
  | spent node => .stop node state .exhausted
  | ask call resume abandon =>
      match v.answer call state with
      | ⟨left, state, none⟩ => (resume left).run v state
      | ⟨left, state, some reason⟩ => .stop (abandon left) state (.failed reason)

theorem asking_andThen (call : Call) (next : call.Node → Dialogue call.Node) :
    (asking call).andThen next = ask call next id := rfl

section
variable (v : Editor σ ε)

theorem run_asking (call : Call) (state : σ) :
    (asking call).run v state = (v.answer call state).mapStopped Halt.failed := by
  unfold asking run
  rcases v.answer call state with ⟨left, next, _ | reason⟩ <;> rfl

theorem run_follow (d : Dialogue α) (early : α → β) (late : α → Dialogue β) (state : σ) :
    (d.follow early late).run v state =
      match d.run v state with
      | ⟨node, state, none⟩ => (late node).run v state
      | ⟨node, state, some reason⟩ => .stop (early node) state reason := by
  induction d generalizing state with
  | ended node => rfl
  | spent node => rfl
  | ask call resume abandon ih =>
      rw [follow, run, run]
      rcases v.answer call state with ⟨left, next, _ | reason⟩
      · exact ih left next
      · rfl

theorem run_map (f : α → β) (d : Dialogue α) (state : σ) :
    (d.map f).run v state = (d.run v state).map f := by
  rw [map, run_follow]
  rcases d.run v state with ⟨node, next, _ | reason⟩ <;> rfl

theorem run_andThen (d : Dialogue α) (next : α → Dialogue α) (state : σ) :
    (d.andThen next).run v state = (d.run v state).andThen fun node => (next node).run v := by
  rw [andThen, run_follow]
  rcases d.run v state with ⟨node, next, _ | reason⟩ <;> rfl

theorem run_each (f : α → Dialogue α) (members : List α) (state : σ) :
    (each f members).run v state = Visit.each (fun member => (f member).run v) members state := by
  induction members generalizing state with
  | nil => rfl
  | cons member rest ih =>
      rw [each, run_follow, Visit.each_cons]
      rcases (f member).run v state with ⟨node, next, _ | reason⟩
      · simp only [run_map, ih]
      · rfl

end

end Dialogue

open Dialogue (asking)

namespace Expr

def askFirst (visit : Expr → Dialogue Expr) (e : Expr) : Dialogue Expr :=
  match e with
  | bool .. | int .. | double .. | name .. => .ended e
  | binary note op left right => (visit left).map (binary note op · right)
  | assign note op target value => (visit value).map (assign note op target ·)
  | unary note op operand => (visit operand).map (unary note op ·)
  | cast note kind operand => (visit operand).map (cast note kind ·)
  | call note callee args =>
      (Dialogue.each visit args).follow (call note callee ·) fun args =>
        (visit callee).map (call note · args)

def askSecond (visit : Expr → Dialogue Expr) (e : Expr) : Dialogue Expr :=
  match e with
  | binary note op left right => (visit right).map (binary note op left ·)
  | assign note op target value => (visit target).map (assign note op · value)
  | _ => .ended e

def dialogue : (depth : Nat) → Expr → Dialogue Expr
  | 0, e => .spent e
  | depth + 1, e =>
      (asking (.enterExpr e)).andThen fun e =>
      (askFirst (dialogue depth) e).andThen fun e =>
      if isPaired e then
        (asking (.betweenExpr e)).andThen fun e =>
        (askSecond (dialogue depth) e).andThen fun e =>
        asking (.leaveExpr e)
      else asking (.leaveExpr e)

end Expr

namespace Stmt

def askRoot (visit : Expr → Dialogue Expr) (s : Stmt) : Dialogue Stmt :=
  match s with
  | expr line value => (visit value).map (expr line ·)
  | declare line decl =>
      match decl.init with
      | some init => (visit init).map fun init => declare line { decl with init := some init }
      | none => .ended s
  | enterIf line condition => (visit condition).map (enterIf line ·)
  | beginBlock _ | endBlock _ | leaveIf _ => .ended s

def dialogue (depth : Nat) (s : Stmt) : Dialogue Stmt :=
  (asking (.enterStmt s)).andThen fun s =>
  (askRoot (Expr.dialogue depth) s).andThen fun s =>
  asking (.leaveStmt s)

end Stmt

def Dialogue.ofStmts (depth : Nat) (stmts : List Stmt) : Dialogue (List Stmt) :=
  each (Stmt.dialogue depth) stmts

structure Dialogue.Composes (post : (α : Type) → Dialogue α → Prop) : Prop where
  ended : ∀ {α : Type} (node : α), post α (.ended node)
  follow : ∀ {α β : Type} {d : Dialogue α} {early : α → β} {late : α → Dialogue β},
    post α d → (∀ node, post β (late node)) → post β (d.follow early late)

namespace Dialogue.Composes

section
variable {post : (α : Type) → Dialogue α → Prop} (composes : Composes post)
include composes

theorem map {d : Dialogue α} {f : α → β} (inner : post α d) : post β (d.map f) :=
  composes.follow inner fun _ => composes.ended _

theorem each {visit : α → Dialogue α} (one : ∀ member, post α (visit member)) (members : List α) :
    post (List α) (Dialogue.each visit members) := by
  induction members with
  | nil => exact composes.ended []
  | cons member rest ih => exact composes.follow (one member) fun _ => composes.map ih

variable {visit : Expr → Dialogue Expr} (one : ∀ e, post Expr (visit e))
include one

theorem first (e : Expr) : post Expr (e.askFirst visit) := by
  cases e with
  | bool | int | double | name => exact composes.ended _
  | binary | assign | unary | cast => exact composes.map (one _)
  | call note callee args =>
      exact composes.follow (composes.each one args) fun _ => composes.map (one callee)

theorem second (e : Expr) : post Expr (e.askSecond visit) := by
  cases e with
  | binary | assign => exact composes.map (one _)
  | bool | int | double | name | unary | call | cast => exact composes.ended _

theorem root (s : Stmt) : post Stmt (s.askRoot visit) := by
  cases s with
  | expr | enterIf => exact composes.map (one _)
  | beginBlock | endBlock | leaveIf => exact composes.ended _
  | declare line decl =>
      rcases decl with ⟨name, ty, _ | init, id⟩
      · exact composes.ended _
      · exact composes.map (one init)

end

end Dialogue.Composes

section
variable (v : Editor σ ε)

theorem Expr.run_askFirst {ask : Expr → Dialogue Expr} {visit : Expr → σ → Visit σ (Halt ε) Expr}
    (same : ∀ e state, (ask e).run v state = visit e state) (e : Expr) (state : σ) :
    (e.askFirst ask).run v state = e.visitFirst visit state := by
  have visits : (fun member => (ask member).run v) = visit := funext fun e => funext (same e)
  cases e with
  | bool | int | double | name => rfl
  | binary | assign | unary | cast => simp only [askFirst, visitFirst, Dialogue.run_map, same]
  | call note callee args =>
      rw [askFirst, visitFirst, Dialogue.run_follow, Dialogue.run_each, visits]
      rcases Visit.each visit args state with ⟨args, next, _ | reason⟩
      · simp only [Dialogue.run_map, same]
      · rfl

theorem Expr.run_askSecond {ask : Expr → Dialogue Expr} {visit : Expr → σ → Visit σ (Halt ε) Expr}
    (same : ∀ e state, (ask e).run v state = visit e state) (e : Expr) (state : σ) :
    (e.askSecond ask).run v state = e.visitSecond visit state := by
  cases e with
  | binary | assign => simp only [askSecond, visitSecond, Dialogue.run_map, same]
  | bool | int | double | name | unary | call | cast => rfl

theorem Stmt.run_askRoot {ask : Expr → Dialogue Expr} {visit : Expr → σ → Visit σ (Halt ε) Expr}
    (same : ∀ e state, (ask e).run v state = visit e state) (s : Stmt) (state : σ) :
    (s.askRoot ask).run v state = s.visitRoot visit state := by
  cases s with
  | expr | enterIf => simp only [askRoot, visitRoot, Dialogue.run_map, same]
  | beginBlock | endBlock | leaveIf => rfl
  | declare line decl =>
      rcases decl with ⟨name, ty, _ | init, id⟩
      · rfl
      · simp only [askRoot, visitRoot, Dialogue.run_map, same]

namespace Editor

theorem walkExpr_dialogue (depth : Nat) (e : Expr) (state : σ) :
    (e.dialogue depth).run v state = v.walkExpr depth e state := by
  induction depth generalizing e state with
  | zero => rfl
  | succ depth ih =>
      rw [Expr.dialogue, walkExpr, Dialogue.run_andThen, Dialogue.run_asking]
      congr 1
      funext e state
      rw [Dialogue.run_andThen, Expr.run_askFirst v ih]
      congr 1
      funext e state
      cases Expr.isPaired e with
      | false => exact Dialogue.run_asking v _ state
      | true =>
          rw [if_pos rfl, if_pos rfl, Dialogue.run_andThen, Dialogue.run_asking]
          congr 1
          funext e state
          rw [Dialogue.run_andThen, Expr.run_askSecond v ih]
          congr 1
          funext e state
          exact Dialogue.run_asking v _ state

theorem walkStmt_dialogue (depth : Nat) (s : Stmt) (state : σ) :
    (s.dialogue depth).run v state = v.walkStmt depth s state := by
  rw [Stmt.dialogue, walkStmt, Dialogue.run_andThen, Dialogue.run_asking]
  congr 1
  funext s state
  rw [Dialogue.run_andThen, Stmt.run_askRoot v (v.walkExpr_dialogue depth)]
  congr 1
  funext s state
  exact Dialogue.run_asking v _ state

/-- A walk is the dialogue of its statements held with the editor. -/
theorem walkStmts_dialogue (depth : Nat) (stmts : List Stmt) (state : σ) :
    v.walkStmts depth stmts state = (Dialogue.ofStmts depth stmts).run v state := by
  have visits : (fun s => (Stmt.dialogue depth s).run v) = v.walkStmt depth :=
    funext fun s => funext (v.walkStmt_dialogue depth s)
  rw [Dialogue.ofStmts, Dialogue.run_each, visits]
  rfl

end Editor

end

end StackCompiler
