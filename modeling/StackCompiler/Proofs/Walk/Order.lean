import StackCompiler.Walk.Reading

/-!
The order of a reading walk, node by node.
-/
namespace StackCompiler.Visitor

variable {σ ε : Type} (v : Visitor σ ε) (note : Note)

@[simp] theorem walkExpr_bool (value : Bool) : v.walkExpr (.bool note value) = (do
    v.enterExpr (.bool note value)
    v.leaveExpr (.bool note value)) := rfl

@[simp] theorem walkExpr_int (value : Int32) : v.walkExpr (.int note value) = (do
    v.enterExpr (.int note value)
    v.leaveExpr (.int note value)) := rfl

@[simp] theorem walkExpr_double (value : Double) : v.walkExpr (.double note value) = (do
    v.enterExpr (.double note value)
    v.leaveExpr (.double note value)) := rfl

@[simp] theorem walkExpr_name (identifier : String) (binding : Option Binding) :
    v.walkExpr (.name note identifier binding) = (do
      v.enterExpr (.name note identifier binding)
      v.leaveExpr (.name note identifier binding)) := rfl

@[simp] theorem walkExpr_binary (op : BinaryOp) (left right : Expr) :
    v.walkExpr (.binary note op left right) = (do
      v.enterExpr (.binary note op left right)
      v.walkExpr left
      v.betweenExpr (.binary note op left right)
      v.walkExpr right
      v.leaveExpr (.binary note op left right)) := rfl

@[simp] theorem walkExpr_assign (op : AssignOp) (target value : Expr) :
    v.walkExpr (.assign note op target value) = (do
      v.enterExpr (.assign note op target value)
      v.walkExpr value
      v.betweenExpr (.assign note op target value)
      v.walkExpr target
      v.leaveExpr (.assign note op target value)) := rfl

@[simp] theorem walkExpr_unary (op : UnaryOp) (operand : Expr) :
    v.walkExpr (.unary note op operand) = (do
      v.enterExpr (.unary note op operand)
      v.walkExpr operand
      v.leaveExpr (.unary note op operand)) := rfl

@[simp] theorem walkExpr_cast (kind : Cast) (operand : Expr) :
    v.walkExpr (.cast note kind operand) = (do
      v.enterExpr (.cast note kind operand)
      v.walkExpr operand
      v.leaveExpr (.cast note kind operand)) := rfl

@[simp] theorem walkExpr_call (callee : Expr) (args : List Expr) :
    v.walkExpr (.call note callee args) = (do
      v.enterExpr (.call note callee args)
      v.walkArgs args
      v.walkExpr callee
      v.leaveExpr (.call note callee args)) := rfl

theorem walkArgs_cons (arg : Expr) (rest : List Expr) :
    v.walkArgs (arg :: rest) = (do
      v.walkExpr arg
      v.walkArgs rest) := rfl

theorem walkArgs_eq (args : List Expr) : v.walkArgs args = args.forM v.walkExpr := by
  induction args with
  | nil => rfl
  | cons arg rest ih => rw [walkArgs, ih]; rfl

theorem walkStmts_cons (s : Stmt) (rest : List Stmt) :
    v.walkStmts (s :: rest) = (do
      v.walkStmt s
      v.walkStmts rest) := rfl

end StackCompiler.Visitor
