import StackCompiler.Proofs.Language.Nodes

/-!
What typing adds to a tree, and the tree without it.

Erasing takes types and casts away and leaves lines, operators, bindings and ids. Binding is the
other half of typing: it fills in what every name stands for and nothing else.
-/
namespace StackCompiler

namespace Expr

mutual
def erased : Expr → Expr
  | bool note value => bool ⟨note.line, none⟩ value
  | int note value => int ⟨note.line, none⟩ value
  | double note value => double ⟨note.line, none⟩ value
  | name note identifier binding => name ⟨note.line, none⟩ identifier binding
  | binary note op left right => binary ⟨note.line, none⟩ op left.erased right.erased
  | unary note op operand => unary ⟨note.line, none⟩ op operand.erased
  | assign note op target value => assign ⟨note.line, none⟩ op target.erased value.erased
  | call note callee args => call ⟨note.line, none⟩ callee.erased (erasedArgs args)
  | cast _ _ operand => operand.erased

def erasedArgs : List Expr → List Expr
  | [] => []
  | arg :: rest => arg.erased :: erasedArgs rest
end

mutual
/-- An expression in which every name is bound as `lookup` says. -/
def bound (lookup : String → Option Binding) : Expr → Expr
  | bool note value => bool note value
  | int note value => int note value
  | double note value => double note value
  | name note identifier _ => name note identifier (lookup identifier)
  | binary note op left right => binary note op (left.bound lookup) (right.bound lookup)
  | unary note op operand => unary note op (operand.bound lookup)
  | assign note op target value => assign note op (target.bound lookup) (value.bound lookup)
  | call note callee args => call note (callee.bound lookup) (boundArgs lookup args)
  | cast note kind operand => cast note kind (operand.bound lookup)

def boundArgs (lookup : String → Option Binding) : List Expr → List Expr
  | [] => []
  | arg :: rest => arg.bound lookup :: boundArgs lookup rest
end

@[simp] theorem erasedArgs_eq (args : List Expr) : erasedArgs args = args.map erased := by
  induction args with
  | nil => rfl
  | cons arg rest ih => simp [erasedArgs, ih]

@[simp] theorem boundArgs_eq (lookup : String → Option Binding) (args : List Expr) :
    boundArgs lookup args = args.map (bound lookup) := by
  induction args with
  | nil => rfl
  | cons arg rest ih => simp [boundArgs, ih]

/-- The line and the name of a use to which `lookup` gives no meaning. -/
def unbound? (lookup : String → Option Binding) : Expr → Option (Nat × String)
  | name note identifier _ =>
      if (lookup identifier).isNone then some (note.line, identifier) else none
  | _ => none

def unbound (lookup : String → Option Binding) (e : Expr) : List (Nat × String) :=
  e.nodes.filterMap (unbound? lookup)

section
variable (lookup : String → Option Binding) (note : Note)

theorem unbound_name (identifier : String) (binding : Option Binding) :
    (name note identifier binding).unbound lookup =
      if (lookup identifier).isNone then [(note.line, identifier)] else [] := by
  by_cases missing : (lookup identifier).isNone
  · simp only [unbound, nodes, List.filterMap_cons, unbound?, missing, ↓reduceIte,
      List.filterMap_nil]
  · simp only [unbound, nodes, List.filterMap_cons, unbound?, missing, ↓reduceIte,
      List.filterMap_nil, Bool.false_eq_true]

theorem unbound_binary (op : BinaryOp) (left right : Expr) :
    (binary note op left right).unbound lookup = left.unbound lookup ++ right.unbound lookup :=
  filterMap_nodes_binary (unbound? lookup) note rfl

theorem unbound_unary (op : UnaryOp) (operand : Expr) :
    (unary note op operand).unbound lookup = operand.unbound lookup :=
  filterMap_nodes_unary (unbound? lookup) note rfl

theorem unbound_assign (op : AssignOp) (target value : Expr) :
    (assign note op target value).unbound lookup = value.unbound lookup ++ target.unbound lookup :=
  filterMap_nodes_assign (unbound? lookup) note rfl

theorem unbound_call (callee : Expr) (args : List Expr) :
    (call note callee args).unbound lookup =
      args.flatMap (unbound lookup) ++ callee.unbound lookup :=
  filterMap_nodes_call (unbound? lookup) note rfl

end

@[simp] theorem erased_constants (e : Expr) : e.erased.constants = e.constants := by
  induction e with
  | call note callee args target inner =>
      simp only [erased, erasedArgs_eq, constants_call, target, List.flatMap_map]
      rw [List.flatMap_def, List.flatMap_def, List.map_congr_left inner]
  | _ => simp_all [erased]

@[simp] theorem bound_constants (lookup : String → Option Binding) (e : Expr) :
    (e.bound lookup).constants = e.constants := by
  induction e with
  | call note callee args target inner =>
      simp only [bound, boundArgs_eq, constants_call, target, List.flatMap_map]
      rw [List.flatMap_def, List.flatMap_def, List.map_congr_left inner]
  | _ => simp_all [bound]

@[simp] theorem erased_coerce (e : Expr) (coercion : Coercion) :
    (e.coerce coercion).erased = e.erased := by
  cases coercion <;> rfl

@[simp] theorem erased_widenIf (e : Expr) (widen : Bool) : (e.widenIf widen).erased = e.erased := by
  cases widen <;> rfl

theorem erased_fresh (e : Expr) (fresh : e.Fresh) : e.erased = e := by
  induction e with
  | bool note value | int note value | double note value =>
      obtain ⟨line, ty⟩ := note
      obtain rfl : ty = none := fresh _ (self_mem_nodes _)
      rfl
  | name note identifier binding =>
      obtain ⟨line, ty⟩ := note
      obtain ⟨rfl, _⟩ : ty = none ∧ binding = none := fresh _ (self_mem_nodes _)
      rfl
  | binary note op left right first second =>
      obtain ⟨line, ty⟩ := note
      obtain ⟨leftFresh, rightFresh, rfl⟩ := (fresh_binary _).mp fresh
      rw [erased, first leftFresh, second rightFresh]
  | unary note op operand inner =>
      obtain ⟨line, ty⟩ := note
      obtain ⟨operandFresh, rfl⟩ := (fresh_unary _).mp fresh
      rw [erased, inner operandFresh]
  | assign note op target value first second =>
      obtain ⟨line, ty⟩ := note
      obtain ⟨valueFresh, targetFresh, rfl⟩ := (fresh_assign _).mp fresh
      rw [erased, first targetFresh, second valueFresh]
  | call note callee args target inner =>
      obtain ⟨line, ty⟩ := note
      obtain ⟨argsFresh, calleeFresh, rfl⟩ := (fresh_call _).mp fresh
      have same : args.map erased = args :=
        (List.map_congr_left fun arg member => inner arg member (argsFresh arg member)).trans
        (List.map_id _)
      rw [erased, target calleeFresh, erasedArgs_eq, same]
  | cast note kind operand inner => exact absurd fresh (not_fresh_cast _)

end Expr

def Stmt.erased : Stmt → Stmt
  | expr line value => expr line value.erased
  | declare line decl => declare line { decl with init := decl.init.map Expr.erased }
  | enterIf line condition => enterIf line condition.erased
  | s => s

theorem Stmt.erased_fresh (s : Stmt) (fresh : s.Fresh) : s.erased = s := by
  cases s with
  | expr line value => exact congrArg (expr line) (value.erased_fresh fresh)
  | enterIf line condition => exact congrArg (enterIf line) (condition.erased_fresh fresh)
  | declare line decl =>
      obtain ⟨name, ty, init, id⟩ := decl
      cases init with
      | none => rfl
      | some init =>
          have same := init.erased_fresh (fresh.2 init rfl)
          simp only [erased, Option.map_some, same]
  | beginBlock line | endBlock line | leaveIf line => rfl

def Function.erased (f : Function) : Function := { f with body := f.body.map (·.map Stmt.erased) }

theorem Function.erased_fresh (f : Function) (fresh : f.FreshInside) : f.erased = f := by
  obtain ⟨name, returns, params, body, line, id⟩ := f
  cases body with
  | none => rfl
  | some body =>
      have same : body.map Stmt.erased = body :=
        (List.map_congr_left fun s member => s.erased_fresh (fresh.2 body rfl s member)).trans
          (List.map_id _)
      simp only [erased, Option.map_some, same]

def Item.erased : Item → Item
  | function f => function f.erased
  | stmt s => stmt s.erased

def Program.erased (p : Program) : Program := ⟨p.items.map Item.erased⟩

end StackCompiler
