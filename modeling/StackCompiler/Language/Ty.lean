/-!
The value types and the conversions between the two numeric ones.

Two rules decide where a conversion may be implied. A value stored into a slot is coerced to the
slot's type, in either direction; two operands are promoted to a common type, and only the int
side ever moves. A boolean never converts.
-/
namespace StackCompiler

inductive Ty
  | boolean
  | int
  | double
deriving DecidableEq, Repr, Inhabited

namespace Ty

def name : Ty → String
  | boolean => "boolean"
  | int => "int"
  | double => "double"

def isNumeric : Ty → Bool
  | boolean => false
  | int | double => true

end Ty

inductive Cast
  | intToDouble
  | doubleToInt
deriving DecidableEq, Repr

namespace Cast

def source : Cast → Ty
  | intToDouble => .int
  | doubleToInt => .double

def target : Cast → Ty
  | intToDouble => .double
  | doubleToInt => .int

def between? : Ty → Ty → Option Cast
  | .int, .double => some intToDouble
  | .double, .int => some doubleToInt
  | _, _ => none

theorem between?_eq_some_iff {source target : Ty} {kind : Cast} :
    between? source target = some kind ↔ source = kind.source ∧ target = kind.target := by
  cases source <;> cases target <;> cases kind <;> decide

end Cast

/-- How a value reaches a slot: as it is, or through one conversion. -/
inductive Coercion
  | identity
  | convert (kind : Cast)
deriving DecidableEq, Repr

namespace Coercion

def into? (source target : Ty) : Option Coercion :=
  if source = target then some identity else (Cast.between? source target).map convert

end Coercion

/-- The common type of two operands and which of them is widened to reach it. -/
structure Promotion where
  operand : Ty
  widenLeft : Bool
  widenRight : Bool
deriving DecidableEq, Repr

namespace Promotion

def of? : Ty → Ty → Option Promotion
  | .int, .int => some ⟨.int, false, false⟩
  | .int, .double => some ⟨.double, true, false⟩
  | .double, .int => some ⟨.double, false, true⟩
  | .double, .double => some ⟨.double, false, false⟩
  | .boolean, _ | _, .boolean => none

end Promotion

end StackCompiler
