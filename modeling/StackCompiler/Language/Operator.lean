/-!
The operators of the language.

Binary operators come in three families with a typing rule each, so the family is part of the
operator. A compound assignment names the arithmetic operator it applies, and no other kind of
operator can stand there.
-/
namespace StackCompiler

inductive Arith
  | add
  | sub
  | mul
  | div
  | mod
deriving DecidableEq, Repr

def Arith.symbol : Arith → String
  | add => "+"
  | sub => "-"
  | mul => "*"
  | div => "/"
  | mod => "%"

inductive Comparison
  | greater
  | greaterEqual
  | less
  | lessEqual
  | equal
  | notEqual
deriving DecidableEq, Repr

namespace Comparison

def symbol : Comparison → String
  | greater => ">"
  | greaterEqual => ">="
  | less => "<"
  | lessEqual => "<="
  | equal => "=="
  | notEqual => "!="

/-- Equality compares booleans too; the order relations do not. -/
def isEquality : Comparison → Bool
  | equal | notEqual => true
  | greater | greaterEqual | less | lessEqual => false

end Comparison

inductive Connective
  | and
  | or
deriving DecidableEq, Repr

def Connective.symbol : Connective → String
  | and => "&&"
  | or => "||"

inductive BinaryOp
  | arith (op : Arith)
  | compare (op : Comparison)
  | logic (op : Connective)
deriving DecidableEq, Repr

inductive Category
  | arithmetic
  | relational
  | equality
  | logical
deriving DecidableEq, Repr

def Category.name : Category → String
  | arithmetic => "arithmetic"
  | relational => "relational"
  | equality => "equality"
  | logical => "logical"

namespace BinaryOp

def symbol : BinaryOp → String
  | arith op => op.symbol
  | compare op => op.symbol
  | logic op => op.symbol

def category : BinaryOp → Category
  | arith _ => .arithmetic
  | compare op => if op.isEquality then .equality else .relational
  | logic _ => .logical

end BinaryOp

inductive UnaryOp
  | negate
  | not
  | increment
  | decrement
deriving DecidableEq, Repr

namespace UnaryOp

def symbol : UnaryOp → String
  | negate => "-"
  | not => "!"
  | increment => "++"
  | decrement => "--"

/-- Whether the operator stores back into its operand. -/
def mutates : UnaryOp → Bool
  | increment | decrement => true
  | negate | not => false

end UnaryOp

inductive AssignOp
  | plain
  | compound (op : Arith)
deriving DecidableEq, Repr

namespace AssignOp

def symbol : AssignOp → String
  | plain => "="
  | compound op => op.symbol ++ "="

def arithmetic? : AssignOp → Option Arith
  | plain => none
  | compound op => some op

def isCompound (op : AssignOp) : Bool := op.arithmetic?.isSome

end AssignOp

end StackCompiler
