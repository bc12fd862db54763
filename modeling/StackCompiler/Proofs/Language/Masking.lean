import StackCompiler.Proofs.Language.Erasure

/-!
A tree without what code generation must not depend on.

Masking takes away the lines and the values of literals and renames every name; what is left is the
shape of the tree with its operators and declared types. Programs that agree after masking differ in
nothing else, and a name is looked up after a faithful renaming as it was before.
-/
namespace StackCompiler

def Note.masked (note : Note) : Note := ⟨1, note.ty⟩

section
variable (rename : String → String)

namespace Expr

mutual
/-- An expression at line 1 with its names renamed and a fixed value in every literal. -/
def masked : Expr → Expr
  | bool note _ => bool note.masked false
  | int note _ => int note.masked 0
  | double note _ => double note.masked ⟨0⟩
  | name note identifier binding => name note.masked (rename identifier) binding
  | binary note op left right => binary note.masked op left.masked right.masked
  | unary note op operand => unary note.masked op operand.masked
  | assign note op target value => assign note.masked op target.masked value.masked
  | call note callee args => call note.masked callee.masked (maskedArgs args)
  | cast note kind operand => cast note.masked kind operand.masked

def maskedArgs : List Expr → List Expr
  | [] => []
  | arg :: rest => arg.masked :: maskedArgs rest
end

@[simp] theorem maskedArgs_eq (args : List Expr) :
    maskedArgs rename args = args.map (masked rename) := by
  induction args with
  | nil => rfl
  | cons arg rest ih => simp [maskedArgs, ih]

variable (e : Expr)

@[simp] theorem masked_note : (e.masked rename).note = e.note.masked := by
  cases e <;> rfl

@[simp] theorem masked_line : (e.masked rename).line = 1 := by
  simp [line, Note.masked]

@[simp] theorem masked_ty : (e.masked rename).ty = e.ty := by
  simp [ty, Note.masked]

@[simp] theorem masked_isName : (e.masked rename).isName = e.isName := by
  cases e <;> rfl

@[simp] theorem masked_noun : (e.masked rename).noun = e.noun := by
  cases e <;> rfl

@[simp] theorem masked_convert (kind : Cast) :
    (e.convert kind).masked rename = (e.masked rename).convert kind := by
  simp [convert, masked, Note.masked]

@[simp] theorem masked_coerce (coercion : Coercion) :
    (e.coerce coercion).masked rename = (e.masked rename).coerce coercion := by
  cases coercion <;> simp [coerce]

@[simp] theorem masked_widenIf (widen : Bool) :
    (e.widenIf widen).masked rename = (e.masked rename).widenIf widen := by
  cases widen <;> simp [widenIf]

end Expr

def Declaration.masked (decl : Declaration) : Declaration :=
  ⟨rename decl.name, decl.ty, decl.init.map (Expr.masked rename), decl.id⟩

def Stmt.masked : Stmt → Stmt
  | expr _ value => expr 1 (value.masked rename)
  | declare _ decl => declare 1 (decl.masked rename)
  | beginBlock _ => beginBlock 1
  | endBlock _ => endBlock 1
  | enterIf _ condition => enterIf 1 (condition.masked rename)
  | leaveIf _ => leaveIf 1

@[simp] theorem Stmt.masked_line (s : Stmt) : (s.masked rename).line = 1 := by
  cases s <;> rfl

@[simp] theorem Stmt.masked_root (s : Stmt) :
    (s.masked rename).root? = s.root?.map (Expr.masked rename) := by
  cases s <;> rfl

def Param.masked (param : Param) : Param := ⟨rename param.name, param.ty, param.id⟩

def Function.masked (f : Function) : Function :=
  ⟨rename f.name, f.returns, f.params.map (Param.masked rename),
    f.body.map (·.map (Stmt.masked rename)), 1, f.id⟩

@[simp] theorem Function.masked_paramTypes (f : Function) :
    (f.masked rename).paramTypes = f.paramTypes := by
  simp [paramTypes, Function.masked, Param.masked]

def Item.masked : Item → Item
  | function f => function (f.masked rename)
  | stmt s => stmt (s.masked rename)

namespace Program

/-- What is left of a program when its lines, its names and the values of its literals are
hidden. -/
def masked (p : Program) : Program := ⟨p.items.map (Item.masked rename)⟩

variable (p : Program)

@[simp] theorem masked_functions :
    (p.masked rename).functions = p.functions.map (Function.masked rename) := by
  rcases p with ⟨items⟩
  induction items with
  | nil => rfl
  | cons item rest ih =>
      cases item with
      | function f => exact congrArg (f.masked rename :: ·) ih
      | stmt s => exact ih

@[simp] theorem masked_statements :
    (p.masked rename).statements = p.statements.map (Stmt.masked rename) := by
  rcases p with ⟨items⟩
  induction items with
  | nil => rfl
  | cons item rest ih =>
      cases item with
      | function f => exact ih
      | stmt s => exact congrArg (s.masked rename :: ·) ih

end Program
end
end StackCompiler
