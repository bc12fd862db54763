import StackCompiler.Language.Operator
import StackCompiler.Language.Ty
import StackCompiler.Number.Double

/-!
Expressions.

Every node carries a line and a type slot. The slot is empty in a fresh tree and filled by typing;
an identifier has a binding slot of the same kind. A cast is never written by the programmer:
typing puts it around an operand whose value has to be converted.
-/
namespace StackCompiler

/-- The place of a variable in the history of declarations, which is also its static slot. -/
structure VarId where
  index : Nat
deriving DecidableEq, Repr

/-- The place of a function in the history of functions, which is also its table slot. -/
structure FunId where
  index : Nat
deriving DecidableEq, Repr

def VarId.text (id : VarId) : String := s!"decl_{id.index}"

def FunId.text (id : FunId) : String := s!"func_{id.index}"

inductive Binding
  | variable (id : VarId)
  | function (id : FunId)
deriving DecidableEq, Repr

structure Note where
  line : Nat
  ty : Option Ty
deriving DecidableEq, Repr

inductive Expr
  | bool (note : Note) (value : Bool)
  | int (note : Note) (value : Int32)
  | double (note : Note) (value : Double)
  | name (note : Note) (name : String) (binding : Option Binding)
  | binary (note : Note) (op : BinaryOp) (left right : Expr)
  | unary (note : Note) (op : UnaryOp) (operand : Expr)
  | assign (note : Note) (op : AssignOp) (target value : Expr)
  | call (note : Note) (callee : Expr) (args : List Expr)
  | cast (note : Note) (kind : Cast) (operand : Expr)

namespace Expr

def note : Expr → Note
  | bool note _ | int note _ | double note _ | name note _ _ | binary note _ _ _
  | unary note _ _ | assign note _ _ _ | call note _ _ | cast note _ _ => note

def line (e : Expr) : Nat := e.note.line

def ty (e : Expr) : Option Ty := e.note.ty

def isLiteral : Expr → Bool
  | bool .. | int .. | double .. => true
  | _ => false

def isName : Expr → Bool
  | name .. => true
  | _ => false

/-- Only the nodes with two operands in a fixed order are announced between them. -/
def isPaired : Expr → Bool
  | binary .. | assign .. => true
  | _ => false

def noun : Expr → String
  | bool .. => "boolean literal"
  | int .. => "integer literal"
  | double .. => "double literal"
  | name .. => "identifier"
  | binary .. => "binary expression"
  | unary .. => "unary expression"
  | assign .. => "assignment"
  | call .. => "function call"
  | cast .. => "cast"

/-- The cast stands at the line of what it converts and has the type it converts to. -/
def convert (kind : Cast) (e : Expr) : Expr := cast ⟨e.line, some kind.target⟩ kind e

def coerce (e : Expr) : Coercion → Expr
  | .identity => e
  | .convert kind => e.convert kind

def widenIf (e : Expr) : Bool → Expr
  | true => e.convert .intToDouble
  | false => e

-- Height of the tree, a leaf counting one.
mutual
def height : Expr → Nat
  | bool .. | int .. | double .. | name .. => 1
  | binary _ _ left right => max left.height right.height + 1
  | unary _ _ operand => operand.height + 1
  | assign _ _ target value => max value.height target.height + 1
  | call _ callee args => max (heightOfArgs args) callee.height + 1
  | cast _ _ operand => operand.height + 1

def heightOfArgs : List Expr → Nat
  | [] => 0
  | arg :: rest => max arg.height (heightOfArgs rest)
end

end Expr

end StackCompiler
