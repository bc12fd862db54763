import StackCompiler.Number.Double

/-!
The constants of an executable.

The pool only grows and never looks for an equal entry: every literal owns the entry it adds.
-/
namespace StackCompiler

/-- A literal as the machine sees it; a boolean is the int 0 or 1. -/
inductive Constant
  | int (value : Int32)
  | double (value : Double)
deriving DecidableEq, Repr

def Constant.text : Constant → String
  | int value => s!"int {value.toInt}"
  | double value => "double " ++ value.text

structure ConstantPool where
  entries : Array Constant
deriving Repr

namespace ConstantPool

def empty : ConstantPool := ⟨#[]⟩

def size (pool : ConstantPool) : Nat := pool.entries.size

def get? (pool : ConstantPool) (index : Nat) : Option Constant := pool.entries[index]?

def push (pool : ConstantPool) (constant : Constant) : Nat × ConstantPool :=
  (pool.size, ⟨pool.entries.push constant⟩)

end ConstantPool

end StackCompiler
