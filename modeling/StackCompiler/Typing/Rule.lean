import StackCompiler.Diagnostic
import StackCompiler.Language.Expr

/-!
The typing rule of each node, given its operands as typing left them.

A rule gives the node its type and puts a cast around an operand where a conversion is implied, or
it names the one problem of the node. If an operand it depends on has no type then that operand's
problem was already named, and the rule says nothing. In every case an old type of the node is
replaced.
-/
namespace StackCompiler

/-- A part of the tree after typing, and the problems found in it, in the order they were found. -/
structure Typed (α : Type) where
  node : α
  diagnostics : List Diagnostic

structure BinaryTyping where
  result : Ty
  widenLeft : Bool
  widenRight : Bool
deriving DecidableEq, Repr

def Promotion.typing (promotion : Promotion) (result : Ty) : BinaryTyping :=
  ⟨result, promotion.widenLeft, promotion.widenRight⟩

def BinaryOp.typing? (op : BinaryOp) (left right : Ty) : Option BinaryTyping :=
  match op with
  | .arith _ => (Promotion.of? left right).map fun promotion => promotion.typing promotion.operand
  | .compare op =>
      if op.isEquality ∧ left = .boolean ∧
        right = .boolean then some ⟨.boolean, false, false⟩
      else (Promotion.of? left right).map fun promotion => promotion.typing .boolean
  | .logic _ =>
      if left = .boolean ∧ right = .boolean then some ⟨.boolean, false, false⟩ else none

def UnaryOp.admits : UnaryOp → Ty → Bool
  | negate, ty => ty.isNumeric
  | not, ty => decide (ty = .boolean)
  | increment, ty | decrement, ty => decide (ty = .int)

/-- An operator that stores into its operand needs a variable there, whatever its type. -/
def UnaryOp.shapeProblem? (op : UnaryOp) (operand : Expr) : Option Problem :=
  if op.mutates then
    match operand with
    | .bool .. | .int .. | .double .. => some (.immediateOperand op)
    | .name _ _ (some (.function _)) => some (.functionOperand op)
    | .name .. => none
    | _ => some (.computedOperand op)
  else none

namespace Typing

def binary (line : Nat) (op : BinaryOp) (left right : Expr) : Typed Expr :=
  let untyped := Expr.binary ⟨line, none⟩ op left right
  match left.ty, right.ty with
  | some leftTy, some rightTy =>
      match op.typing? leftTy rightTy with
      | some typing =>
          ⟨.binary ⟨line, some typing.result⟩ op (left.widenIf typing.widenLeft)
            (right.widenIf typing.widenRight), []⟩
      | none => ⟨untyped, [⟨line, .operands op leftTy rightTy⟩]⟩
  | _, _ => ⟨untyped, []⟩

def unary (line : Nat) (op : UnaryOp) (operand : Expr) : Typed Expr :=
  let untyped := Expr.unary ⟨line, none⟩ op operand
  match op.shapeProblem? operand, operand.ty with
  | some problem, _ => ⟨untyped, [⟨line, problem⟩]⟩
  | none, none => ⟨untyped, []⟩
  | none, some ty =>
      if op.admits ty then ⟨.unary ⟨line, some ty⟩ op operand, []⟩
      else ⟨untyped, [⟨line, .operandType op ty⟩]⟩

def assign (line : Nat) (op : AssignOp) (target value : Expr) : Typed Expr :=
  let untyped := Expr.assign ⟨line, none⟩ op target value
  match target with
  | .name note _ (some (.variable _)) =>
      match note.ty, value.ty with
      | some targetTy, some valueTy =>
          if op.isCompound && !targetTy.isNumeric then
            ⟨untyped, [⟨line, .compoundTarget op targetTy⟩]⟩
          else
            match Coercion.into? valueTy targetTy with
            | some coercion =>
                ⟨.assign ⟨line, some targetTy⟩ op target (value.coerce coercion), []⟩
            | none => ⟨untyped, [⟨line, .assignedType targetTy valueTy⟩]⟩
      | _, _ => ⟨untyped, []⟩
  | .name _ _ none => ⟨untyped, []⟩
  | _ => ⟨untyped, [⟨line, .notAssignable⟩]⟩

/-- Coerces the arguments, from the given position on, to the parameter types. -/
def arguments (line : Nat) (callee : String) :
    (position : Nat) → List Ty → List Expr → Typed (List Expr)
  | position, required :: types, arg :: args =>
      let rest := arguments line callee (position + 1) types args
      match arg.ty with
      | none => ⟨arg :: rest.node, rest.diagnostics⟩
      | some passed =>
          match Coercion.into? passed required with
          | some coercion => ⟨arg.coerce coercion :: rest.node, rest.diagnostics⟩
          | none =>
              ⟨arg :: rest.node,
                ⟨line, .argumentType position callee required passed⟩ :: rest.diagnostics⟩
  | _, _, args => ⟨args, []⟩

/-- A call whose callee names a function with the given name, parameter types and return type. -/
def callOf (line : Nat) (callee : Expr) (args : List Expr) (name : String) (params : List Ty)
    (returns : Ty) : Typed Expr :=
  if args.length ≠ params.length then
    ⟨.call ⟨line, none⟩ callee args, [⟨line, .argumentCount name params.length args.length⟩]⟩
  else
    let coerced := arguments line name 1 params args
    let complete := args.all (·.ty.isSome) && coerced.diagnostics.isEmpty
    ⟨.call ⟨line, if complete then some returns else none⟩ callee coerced.node, coerced.diagnostics⟩

def cast (line : Nat) (kind : Cast) (operand : Expr) : Expr :=
  .cast ⟨line, operand.ty.map fun _ => kind.target⟩ kind operand

end Typing

end StackCompiler
