import StackCompiler.Language.Operator
import StackCompiler.Language.Ty

/-!
Mistakes of the programmer.

A diagnostic is a line and a cause. Its text and the class under which it is reported are functions
of the cause, so nothing that finds a mistake has to word it.
-/
namespace StackCompiler

inductive Problem
  | unknownName (name : String)
  | duplicate (name : String)
  | operands (op : BinaryOp) (left right : Ty)
  | operandType (op : UnaryOp) (found : Ty)
  | immediateOperand (op : UnaryOp)
  | computedOperand (op : UnaryOp)
  | functionOperand (op : UnaryOp)
  | compoundTarget (op : AssignOp) (found : Ty)
  | notAssignable
  | assignedType (target value : Ty)
  | initializerType (declared value : Ty)
  | conditionType (found : Ty)
  | notCallable (callee : String)
  | argumentCount (callee : String) (required passed : Nat)
  | argumentType (position : Nat) (callee : String) (required passed : Ty)
deriving DecidableEq, Repr

inductive ProblemClass
  | unknownIdentifier
  | typeMismatch
  | duplicateDefinition
  | argumentCountMismatch
  | invalidOperand
  | notAssignable
  | notCallable
deriving DecidableEq, Repr

namespace UnaryOp

def accepts : UnaryOp → String
  | negate => "int or double"
  | not => "boolean"
  | increment | decrement => "int"

end UnaryOp

namespace Problem

def problemClass : Problem → ProblemClass
  | unknownName _ => .unknownIdentifier
  | duplicate _ => .duplicateDefinition
  | operands .. | assignedType .. | initializerType .. | conditionType _ | argumentType .. =>
      .typeMismatch
  | operandType .. | immediateOperand _ | computedOperand _ | functionOperand _
  | compoundTarget .. => .invalidOperand
  | notAssignable => .notAssignable
  | notCallable _ => .notCallable
  | argumentCount .. => .argumentCountMismatch

def text : Problem → String
  | unknownName name => s!"cannot find identifier '{name}'"
  | duplicate name => s!"identifier '{name}' is already defined"
  | operands (.logic op) left right =>
      s!"{op.symbol} accepts only boolean operands, left: {left.name}, right: {right.name}"
  | operands op left right =>
      s!"type mismatch in {op.category.name} binary expression, left: {left.name}, right: {right.name}"
  | operandType op found => s!"operand of {op.symbol} must be {op.accepts}, found {found.name}"
  | immediateOperand op => s!"operand of {op.symbol} is immediate data"
  | computedOperand op => s!"operand of {op.symbol} must be a variable"
  | functionOperand op => s!"operand of {op.symbol} should be a variable, not a function"
  | compoundTarget op found =>
      s!"compound assignment {op.symbol} requires a numeric target, found {found.name}"
  | notAssignable => "left-hand side of assignment is not assignable"
  | assignedType target value => s!"assignment type error {target.name} = {value.name}"
  | initializerType declared value => s!"initializer type error {declared.name} = {value.name}"
  | conditionType found => s!"condition must be boolean, found {found.name}"
  | notCallable callee => s!"'{callee}' is not a function"
  | argumentCount callee required passed =>
      s!"argument count mismatch in call to '{callee}': requires {required}, passed {passed}"
  | argumentType position callee required passed =>
      s!"type mismatch in argument {position} of call to '{callee}': requires {required.name}, passed {passed.name}"

end Problem

structure Diagnostic where
  line : Nat
  problem : Problem
deriving DecidableEq, Repr

def Diagnostic.text (d : Diagnostic) : String := s!"line {d.line}: {d.problem.text}"

end StackCompiler
