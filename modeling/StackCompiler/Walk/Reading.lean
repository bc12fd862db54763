import StackCompiler.Language.Program

/-!
Walking a tree without changing it.

A visitor is told of every node when it is entered and when it is left, and of a binary or
assignment node also between its two operands. Operands come in the order in which they are
evaluated: left before right, an assigned value before its target, arguments before the callee. A
visitor that fails ends the walk there and keeps the state it had.
-/
namespace StackCompiler

structure Visitor (σ ε : Type) where
  enterExpr : Expr → EStateM ε σ Unit
  betweenExpr : Expr → EStateM ε σ Unit
  leaveExpr : Expr → EStateM ε σ Unit
  enterStmt : Stmt → EStateM ε σ Unit
  leaveStmt : Stmt → EStateM ε σ Unit

namespace Visitor

variable {σ ε : Type}

mutual
def walkExpr (v : Visitor σ ε) (e : Expr) : EStateM ε σ Unit := do
  v.enterExpr e
  match e with
  | .bool .. | .int .. | .double .. | .name .. => pure ()
  | .binary _ _ left right =>
      v.walkExpr left
      v.betweenExpr e
      v.walkExpr right
  | .assign _ _ target value =>
      v.walkExpr value
      v.betweenExpr e
      v.walkExpr target
  | .unary _ _ operand => v.walkExpr operand
  | .cast _ _ operand => v.walkExpr operand
  | .call _ callee args =>
      v.walkArgs args
      v.walkExpr callee
  v.leaveExpr e

def walkArgs (v : Visitor σ ε) : List Expr → EStateM ε σ Unit
  | [] => pure ()
  | arg :: rest => do
      v.walkExpr arg
      v.walkArgs rest
end

def walkStmt (v : Visitor σ ε) (s : Stmt) : EStateM ε σ Unit := do
  v.enterStmt s
  match s.root? with
  | some root => v.walkExpr root
  | none => pure ()
  v.leaveStmt s

def walkStmts (v : Visitor σ ε) (stmts : List Stmt) : EStateM ε σ Unit := stmts.forM v.walkStmt

end Visitor

end StackCompiler
