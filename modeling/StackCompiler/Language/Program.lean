import StackCompiler.Language.Expr

/-!
Statements, functions and whole programs.

Blocks and conditionals are not nested: a pair of marker statements stands around the region. So a
statement list is flat, and whether its markers pair up is a question for the passes.
-/
namespace StackCompiler

structure Declaration where
  name : String
  ty : Ty
  init : Option Expr
  id : Option VarId

inductive Stmt
  | expr (line : Nat) (value : Expr)
  | declare (line : Nat) (decl : Declaration)
  | beginBlock (line : Nat)
  | endBlock (line : Nat)
  | enterIf (line : Nat) (condition : Expr)
  | leaveIf (line : Nat)

namespace Stmt

def line : Stmt → Nat
  | expr line _ | declare line _ | beginBlock line | endBlock line | enterIf line _
  | leaveIf line => line

def kind : Stmt → String
  | expr .. => "expr"
  | declare .. => "decl"
  | beginBlock _ => "begin"
  | endBlock _ => "end"
  | enterIf .. => "if"
  | leaveIf _ => "leave"

/-- The expression a statement holds: a value, an initializer or a condition. -/
def root? : Stmt → Option Expr
  | expr _ value => some value
  | declare _ decl => decl.init
  | enterIf _ condition => some condition
  | beginBlock _ | endBlock _ | leaveIf _ => none

end Stmt

structure Param where
  name : String
  ty : Ty
  id : Option VarId

/-- A function without a body is provided by the host. -/
structure Function where
  name : String
  returns : Ty
  params : List Param
  body : Option (List Stmt)
  line : Nat
  id : Option FunId

namespace Function

def paramTypes (f : Function) : List Ty := f.params.map Param.ty

def isHost (f : Function) : Bool := f.body.isNone

end Function

inductive Item
  | function (f : Function)
  | stmt (s : Stmt)

structure Program where
  items : List Item

namespace Program

def functions (p : Program) : List Function :=
  p.items.filterMap fun
    | .function f => some f
    | .stmt _ => none

def statements (p : Program) : List Stmt :=
  p.items.filterMap fun
    | .stmt s => some s
    | .function _ => none

end Program

end StackCompiler
