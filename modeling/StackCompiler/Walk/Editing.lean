import StackCompiler.Language.Program
import StackCompiler.Walk.Visit

/-!
Walking a tree and editing it on the way.

The hooks are those of a reading walk, but each may put another node in place of the one it was
given, and the walk goes on with what it finds there: the node left by `enterExpr` decides which
operand comes first, and after `betweenExpr` the node is looked at again to choose the second one. A
hook can replace a node by a larger tree just before its operands are visited, so nothing in the
tree bounds the walk. It is given the depth to which it may descend, and stops as `exhausted` when
that does not suffice.
-/
namespace StackCompiler

structure Editor (σ ε : Type) where
  enterExpr : Expr → σ → Visit σ ε Expr
  betweenExpr : Expr → σ → Visit σ ε Expr
  leaveExpr : Expr → σ → Visit σ ε Expr
  enterStmt : Stmt → σ → Visit σ ε Stmt
  leaveStmt : Stmt → σ → Visit σ ε Stmt

inductive Halt (ε : Type)
  | failed (reason : ε)
  | exhausted

namespace Expr

variable {σ ε : Type}

/-- Visits what comes before the middle of a node: the first operand of a pair, all of another. -/
def visitFirst (visit : Expr → σ → Visit σ ε Expr) (e : Expr) (state : σ) :
    Visit σ ε Expr :=
  match e with
  | bool .. | int .. | double .. | name .. => .done e state
  | binary note op left right => (visit left state).map (binary note op · right)
  | assign note op target value => (visit value state).map (assign note op target ·)
  | unary note op operand => (visit operand state).map (unary note op ·)
  | cast note kind operand => (visit operand state).map (cast note kind ·)
  | call note callee args =>
      match Visit.each visit args state with
      | ⟨args, state, none⟩ => (visit callee state).map (call note · args)
      | ⟨args, state, some reason⟩ => .stop (call note callee args) state reason

def visitSecond (visit : Expr → σ → Visit σ ε Expr) (e : Expr) (state : σ) :
    Visit σ ε Expr :=
  match e with
  | binary note op left right => (visit right state).map (binary note op left ·)
  | assign note op target value => (visit target state).map (assign note op · value)
  | _ => .done e state

end Expr

def Stmt.visitRoot {σ ε : Type} (visit : Expr → σ → Visit σ ε Expr) (s : Stmt) (state : σ) :
    Visit σ ε Stmt :=
  match s with
  | expr line value => (visit value state).map (expr line ·)
  | declare line decl =>
      match decl.init with
      | some init => (visit init state).map fun init => declare line { decl with init := some init }
      | none => .done s state
  | enterIf line condition => (visit condition state).map (enterIf line ·)
  | beginBlock _ | endBlock _ | leaveIf _ => .done s state

namespace Editor

variable {σ ε : Type}

def walkExpr (v : Editor σ ε) : (depth : Nat) → Expr → σ → Visit σ (Halt ε) Expr
  | 0, e, state => .stop e state .exhausted
  | depth + 1, e, state =>
      ((v.enterExpr e state).mapStopped Halt.failed).andThen fun e state =>
      (e.visitFirst (v.walkExpr depth) state).andThen fun e state =>
      if e.isPaired then
        ((v.betweenExpr e state).mapStopped Halt.failed).andThen fun e state =>
        (e.visitSecond (v.walkExpr depth) state).andThen fun e state =>
        (v.leaveExpr e state).mapStopped Halt.failed
      else (v.leaveExpr e state).mapStopped Halt.failed

def walkStmt (v : Editor σ ε) (depth : Nat) (s : Stmt) (state : σ) : Visit σ (Halt ε) Stmt :=
  ((v.enterStmt s state).mapStopped Halt.failed).andThen fun s state =>
  (s.visitRoot (v.walkExpr depth) state).andThen fun s state =>
  (v.leaveStmt s state).mapStopped Halt.failed

def walkStmts (v : Editor σ ε) (depth : Nat) (stmts : List Stmt) (state : σ) :
    Visit σ (Halt ε) (List Stmt) :=
  Visit.each (v.walkStmt depth) stmts state

end Editor

end StackCompiler
