import StackCompiler.Proofs.Language.Erasure

/-!
A tree with everything taken away that typing fills in.

Types, casts, bindings and ids go; lines, names, operators and literals stay. A fresh tree is its
own bare form, and erasing or binding does not change the bare form of a tree.
-/
namespace StackCompiler

namespace Expr

theorem erased_erased (e : Expr) : e.erased.erased = e.erased := by
  induction e with
  | call note callee args target inner =>
      simp only [erased, erasedArgs_eq, target, List.map_map, Function.comp_def]
      rw [List.map_congr_left inner]
  | _ => simp_all [erased]

theorem bound_bound (first second : String → Option Binding) (e : Expr) :
    (e.bound first).bound second = e.bound second := by
  induction e with
  | call note callee args target inner =>
      simp only [bound, boundArgs_eq, target, List.map_map, Function.comp_def]
      rw [List.map_congr_left inner]
  | _ => simp_all [bound]

theorem bound_erased (lookup : String → Option Binding) (e : Expr) :
    (e.bound lookup).erased = e.erased.bound lookup := by
  induction e with
  | call note callee args target inner =>
      simp only [bound, erased, erasedArgs_eq, boundArgs_eq, target, List.map_map,
        Function.comp_def]
      rw [List.map_congr_left inner]
  | _ => simp_all [bound, erased]

def bare (e : Expr) : Expr := e.erased.bound fun _ => none

@[simp] theorem bare_erased (e : Expr) : e.erased.bare = e.bare := by
  rw [bare, erased_erased, bare]

@[simp] theorem bare_bound (lookup : String → Option Binding) (e : Expr) :
    (e.bound lookup).bare = e.bare := by
  rw [bare, bound_erased, bound_bound, bare]

@[simp] theorem bare_constants (e : Expr) : e.bare.constants = e.constants := by
  rw [bare, bound_constants, erased_constants]

theorem bare_fresh (e : Expr) (fresh : e.Fresh) : e.bare = e := by
  rw [bare, erased_fresh e fresh]
  induction e with
  | bool | int | double => rfl
  | name note identifier binding =>
      obtain ⟨_, rfl⟩ : note.ty = none ∧ binding = none := fresh _ (self_mem_nodes _)
      rfl
  | binary note op left right first second =>
      obtain ⟨leftFresh, rightFresh, _⟩ := (fresh_binary _).mp fresh
      rw [bound, first leftFresh, second rightFresh]
  | unary note op operand inner =>
      obtain ⟨operandFresh, _⟩ := (fresh_unary _).mp fresh
      rw [bound, inner operandFresh]
  | assign note op target value first second =>
      obtain ⟨valueFresh, targetFresh, _⟩ := (fresh_assign _).mp fresh
      rw [bound, first targetFresh, second valueFresh]
  | call note callee args target inner =>
      obtain ⟨argsFresh, calleeFresh, _⟩ := (fresh_call _).mp fresh
      have same : args.map (bound fun _ => none) = args :=
        (List.map_congr_left fun arg member => inner arg member (argsFresh arg member)).trans
        (List.map_id _)
      rw [bound, target calleeFresh, boundArgs_eq, same]
  | cast note kind operand inner => exact absurd fresh (not_fresh_cast _)

end Expr

def Stmt.bare : Stmt → Stmt
  | expr line value => expr line value.bare
  | declare line ⟨name, ty, init, _⟩ => declare line ⟨name, ty, init.map Expr.bare, none⟩
  | enterIf line condition => enterIf line condition.bare
  | s => s

def Param.bare (param : Param) : Param := ⟨param.name, param.ty, none⟩

def Function.bare (f : Function) : Function :=
  ⟨f.name, f.returns, f.params.map Param.bare, f.body.map (·.map Stmt.bare), f.line, none⟩

def Item.bare : Item → Item
  | function f => function f.bare
  | stmt s => stmt s.bare

def Program.bare (p : Program) : Program := ⟨p.items.map Item.bare⟩

theorem Stmt.bare_erased (s : Stmt) : s.erased.bare = s.bare := by
  cases s with
  | declare line decl =>
      obtain ⟨name, ty, init, id⟩ := decl
      cases init <;> simp [erased, bare]
  | _ => simp [erased, bare]

theorem Stmt.bare_fresh (s : Stmt) (fresh : s.Fresh) : s.bare = s := by
  cases s with
  | expr line value => exact congrArg (expr line) (value.bare_fresh fresh)
  | enterIf line condition => exact congrArg (enterIf line) (condition.bare_fresh fresh)
  | declare line decl =>
      obtain ⟨name, ty, init, id⟩ := decl
      obtain ⟨rfl, inits⟩ := fresh
      cases init with
      | none => rfl
      | some init => simp [bare, init.bare_fresh (inits init rfl)]
  | beginBlock line | endBlock line | leaveIf line => rfl

theorem Function.bare_erased (f : Function) : f.erased.bare = f.bare := by
  obtain ⟨name, returns, params, body, line, id⟩ := f
  cases body with
  | none => rfl
  | some body => simp [erased, bare, Function.comp_def, Stmt.bare_erased]

theorem Function.bare_fresh (f : Function) (fresh : f.Fresh) : f.bare = f := by
  obtain ⟨name, returns, params, body, line, id⟩ := f
  obtain ⟨rfl, unset, stmts⟩ := fresh
  have same : params.map Param.bare = params := by
    refine (List.map_congr_left fun param member => ?_).trans (List.map_id _)
    obtain ⟨name, ty, id⟩ := param
    cases unset _ member
    rfl
  cases body with
  | none => simp [bare, same]
  | some body =>
      have inside : body.map Stmt.bare = body :=
        (List.map_congr_left fun s member => s.bare_fresh (stmts body rfl s member)).trans
        (List.map_id _)
      simp [bare, same, inside]

theorem Program.bare_erased (p : Program) : p.erased.bare = p.bare := by
  simp only [erased, bare, List.map_map, Function.comp_def]
  refine congrArg Program.mk (List.map_congr_left fun item _ => ?_)
  cases item with
  | function f => exact congrArg Item.function f.bare_erased
  | stmt s => exact congrArg Item.stmt s.bare_erased

theorem Program.bare_fresh (p : Program) (fresh : p.Fresh) : p.bare = p := by
  obtain ⟨items⟩ := p
  refine congrArg Program.mk ((List.map_congr_left fun item member => ?_).trans (List.map_id _))
  have own := fresh item member
  cases item with
  | function f => exact congrArg Item.function (f.bare_fresh own)
  | stmt s => exact congrArg Item.stmt (s.bare_fresh own)

/-! What a tree has in common with its bare form. -/

@[simp] theorem Stmt.bare_names (s : Stmt) : s.bare.names = s.names := by
  cases s <;> rfl

namespace Function
variable (f : Function)

@[simp] theorem bare_stmts : f.bare.stmts = f.stmts.map Stmt.bare := by
  obtain ⟨name, returns, params, body, line, id⟩ := f
  cases body <;> rfl

@[simp] theorem bare_names : f.bare.names = f.names := by
  have stored : f.bare.stored.map Param.name = f.stored.map Param.name := by
    obtain ⟨name, returns, params, body, line, id⟩ := f
    cases body with
    | none => rfl
    | some body => simp [bare, Function.stored, isHost, Function.comp_def, Param.bare]
  rw [names, stored, bare_stmts, List.flatMap_map]
  simp only [Stmt.bare_names, names]

end Function

namespace Program
variable (p : Program)

@[simp] theorem bare_functions : p.bare.functions = p.functions.map Function.bare := by
  obtain ⟨items⟩ := p
  induction items with
  | nil => rfl
  | cons item rest ih =>
      cases item with
      | function f => exact congrArg (f.bare :: ·) ih
      | stmt s => exact ih

@[simp] theorem bare_statements : p.bare.statements = p.statements.map Stmt.bare := by
  obtain ⟨items⟩ := p
  induction items with
  | nil => rfl
  | cons item rest ih =>
      cases item with
      | function f => exact ih
      | stmt s => exact congrArg (s.bare :: ·) ih

@[simp] theorem bare_bodies : p.bare.bodies = p.bodies.map (·.map Stmt.bare) := by
  simp [bodies, Function.comp_def]

@[simp] theorem bare_program_names : p.bare.names = p.names := by
  have item : ∀ item : Item, item.bare.names = item.names := by
    intro item
    cases item with
    | function f => exact f.bare_names
    | stmt s => exact s.bare_names
  simp [names, bare, List.flatMap_map, item]

end Program

end StackCompiler
