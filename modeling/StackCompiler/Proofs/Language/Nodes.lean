import StackCompiler.Code.Constant
import StackCompiler.Language.Program

/-!
The nodes of a tree, in the order in which a walk leaves them.

What is said of every node of an expression is said of the members of one list: that a tree is
fresh, which literals it holds, what each node was given. The list keeps the visiting order, so
facts about order are facts about it too.
-/
namespace StackCompiler

namespace Expr

/-- Induction on expressions, with one hypothesis for each argument of a call. -/
@[elab_as_elim, induction_eliminator]
theorem induction {motive : Expr → Prop}
    (bool : ∀ note value, motive (.bool note value))
    (int : ∀ note value, motive (.int note value))
    (double : ∀ note value, motive (.double note value))
    (name : ∀ note identifier binding, motive (.name note identifier binding))
    (binary : ∀ note op left right, motive left → motive right →
      motive (.binary note op left right))
    (unary : ∀ note op operand, motive operand → motive (.unary note op operand))
    (assign : ∀ note op target value, motive target → motive value →
      motive (.assign note op target value))
    (call : ∀ note callee args, motive callee → (∀ arg ∈ args, motive arg) →
      motive (.call note callee args))
    (cast : ∀ note kind operand, motive operand → motive (.cast note kind operand))
    (e : Expr) : motive e :=
  @Expr.rec motive (fun args => ∀ arg ∈ args, motive arg) bool int double name binary
    unary assign call cast (fun _ absent => absurd absent List.not_mem_nil)
    (fun _ _ first others _ member =>
      (List.mem_cons.mp member).elim (fun same => same ▸ first) (others _)) e

section
variable (note : Note)

@[simp] theorem note_bool (value : Bool) : (bool note value).note = note := rfl

@[simp] theorem note_int (value : Int32) : (int note value).note = note := rfl

@[simp] theorem note_double (value : Double) : (double note value).note = note := rfl

@[simp] theorem note_name (identifier : String) (binding : Option Binding) :
    (name note identifier binding).note = note := rfl

@[simp] theorem note_binary (op : BinaryOp) (left right : Expr) :
    (binary note op left right).note = note := rfl

@[simp] theorem note_unary (op : UnaryOp) (operand : Expr) :
    (unary note op operand).note = note := rfl

@[simp] theorem note_assign (op : AssignOp) (target value : Expr) :
    (assign note op target value).note = note := rfl

@[simp] theorem note_call (callee : Expr) (args : List Expr) :
    (call note callee args).note = note := rfl

@[simp] theorem note_cast (kind : Cast) (operand : Expr) :
    (cast note kind operand).note = note := rfl

end

mutual
def nodes (e : Expr) : List Expr :=
  match e with
  | bool .. | int .. | double .. | name .. => [e]
  | binary _ _ left right => left.nodes ++ right.nodes ++ [e]
  | unary _ _ operand => operand.nodes ++ [e]
  | assign _ _ target value => value.nodes ++ target.nodes ++ [e]
  | call _ callee args => nodesOfArgs args ++ callee.nodes ++ [e]
  | cast _ _ operand => operand.nodes ++ [e]

def nodesOfArgs : List Expr → List Expr
  | [] => []
  | arg :: rest => arg.nodes ++ nodesOfArgs rest
end

section
variable (note : Note)

theorem nodes_binary (op : BinaryOp) (left right : Expr) :
    (binary note op left right).nodes = left.nodes ++ right.nodes ++ [binary note op left right] :=
  rfl

theorem nodes_unary (op : UnaryOp) (operand : Expr) :
    (unary note op operand).nodes = operand.nodes ++ [unary note op operand] := rfl

theorem nodes_assign (op : AssignOp) (target value : Expr) :
    (assign note op target value).nodes =
      value.nodes ++ target.nodes ++ [assign note op target value] := rfl

theorem nodes_call (callee : Expr) (args : List Expr) :
    (call note callee args).nodes = nodesOfArgs args ++ callee.nodes ++ [call note callee args] :=
  rfl

theorem nodes_cast (kind : Cast) (operand : Expr) :
    (cast note kind operand).nodes = operand.nodes ++ [cast note kind operand] := rfl

end

@[simp] theorem nodesOfArgs_eq (args : List Expr) : nodesOfArgs args = args.flatMap nodes := by
  induction args with
  | nil => rfl
  | cons arg rest ih => simp [nodesOfArgs, ih]

theorem self_mem_nodes (e : Expr) : e ∈ e.nodes := by
  cases e <;> simp [nodes]

/-! A property of all nodes, by the form of the expression. -/

section
variable {P : Expr → Prop} {note : Note}

theorem forall_nodes_binary {op : BinaryOp} {left right : Expr} :
    (∀ node ∈ (binary note op left right).nodes, P node) ↔
      ((∀ node ∈ left.nodes, P node) ∧ ∀ node ∈ right.nodes, P node) ∧
        P (binary note op left right) := by
  simp only [nodes_binary, List.forall_mem_append, List.forall_mem_singleton]

theorem forall_nodes_unary {op : UnaryOp} {operand : Expr} :
    (∀ node ∈ (unary note op operand).nodes, P node) ↔
      (∀ node ∈ operand.nodes, P node) ∧ P (unary note op operand) := by
  simp only [nodes_unary, List.forall_mem_append, List.forall_mem_singleton]

theorem forall_nodes_assign {op : AssignOp} {target value : Expr} :
    (∀ node ∈ (assign note op target value).nodes, P node) ↔
      ((∀ node ∈ value.nodes, P node) ∧ ∀ node ∈ target.nodes, P node) ∧
        P (assign note op target value) := by
  simp only [nodes_assign, List.forall_mem_append, List.forall_mem_singleton]

theorem forall_nodes_call {callee : Expr} {args : List Expr} :
    (∀ node ∈ (call note callee args).nodes, P node) ↔
      ((∀ arg ∈ args, ∀ node ∈ arg.nodes, P node) ∧ ∀ node ∈ callee.nodes, P node) ∧
        P (call note callee args) := by
  simp only [nodes_call, nodesOfArgs_eq, List.forall_mem_append, List.forall_mem_flatMap,
    List.forall_mem_singleton]

theorem forall_nodes_cast {kind : Cast} {operand : Expr} :
    (∀ node ∈ (cast note kind operand).nodes, P node) ↔
      (∀ node ∈ operand.nodes, P node) ∧ P (cast note kind operand) := by
  simp only [nodes_cast, List.forall_mem_append, List.forall_mem_singleton]

end

theorem nodes_within (e : Expr) :
    ∀ sub ∈ e.nodes, ∀ node ∈ sub.nodes, node ∈ e.nodes := by
  induction e with
  | bool | int | double | name =>
      intro sub inside
      rw [List.mem_singleton.mp inside]
      exact fun node member => member
  | binary note op left right first second =>
      refine forall_nodes_binary.mpr
        ⟨⟨fun sub inside node member => ?_, fun sub inside node member => ?_⟩,
          fun node member => member⟩
      · exact List.mem_append_left _ (List.mem_append_left _ (first sub inside node member))
      · exact List.mem_append_left _ (List.mem_append_right _ (second sub inside node member))
  | unary note op operand inner =>
      refine forall_nodes_unary.mpr ⟨fun sub inside node member => ?_,
        fun node member => member⟩
      exact List.mem_append_left _ (inner sub inside node member)
  | assign note op target value first second =>
      refine forall_nodes_assign.mpr
        ⟨⟨fun sub inside node member => ?_, fun sub inside node member => ?_⟩,
          fun node member => member⟩
      · exact List.mem_append_left _ (List.mem_append_left _ (second sub inside node member))
      · exact List.mem_append_left _ (List.mem_append_right _ (first sub inside node member))
  | call note callee args target inner =>
      refine forall_nodes_call.mpr
        ⟨⟨fun arg passing sub inside node member => ?_, fun sub inside node member => ?_⟩,
          fun node member => member⟩
      · refine List.mem_append_left _ (List.mem_append_left _ ?_)
        rw [nodesOfArgs_eq]
        exact List.mem_flatMap.mpr ⟨arg, passing, inner arg passing sub inside node member⟩
      · exact List.mem_append_left _ (List.mem_append_right _ (target sub inside node member))
  | cast note kind operand inner =>
      refine forall_nodes_cast.mpr ⟨fun sub inside node member => ?_, fun node member => member⟩
      exact List.mem_append_left _ (inner sub inside node member)

theorem height_within {args : List Expr} : ∀ arg ∈ args, arg.height ≤ heightOfArgs args := by
  induction args with
  | nil => exact fun arg absent => by cases absent
  | cons arg rest ih =>
      rw [heightOfArgs]
      refine List.forall_mem_cons.mpr ⟨Nat.le_max_left .., fun other member => ?_⟩
      exact Nat.le_trans (ih other member) (Nat.le_max_right ..)

/-! What is picked from the nodes of a form that has nothing to pick itself is picked from its
parts. -/

section
variable {α : Type} (pick : Expr → Option α) (note : Note)

theorem filterMap_nodes_binary {op : BinaryOp} {left right : Expr}
    (quiet : pick (binary note op left right) = none) :
    (binary note op left right).nodes.filterMap pick =
      left.nodes.filterMap pick ++ right.nodes.filterMap pick := by
  rw [nodes_binary, List.filterMap_append, List.filterMap_append, List.filterMap_cons_none quiet,
    List.filterMap_nil, List.append_nil]

theorem filterMap_nodes_unary {op : UnaryOp} {operand : Expr}
    (quiet : pick (unary note op operand) = none) :
    (unary note op operand).nodes.filterMap pick = operand.nodes.filterMap pick := by
  rw [nodes_unary, List.filterMap_append, List.filterMap_cons_none quiet, List.filterMap_nil,
    List.append_nil]

theorem filterMap_nodes_assign {op : AssignOp} {target value : Expr}
    (quiet : pick (assign note op target value) = none) :
    (assign note op target value).nodes.filterMap pick =
      value.nodes.filterMap pick ++ target.nodes.filterMap pick := by
  rw [nodes_assign, List.filterMap_append, List.filterMap_append, List.filterMap_cons_none quiet,
    List.filterMap_nil, List.append_nil]

theorem filterMap_nodes_call {callee : Expr} {args : List Expr}
    (quiet : pick (call note callee args) = none) :
    (call note callee args).nodes.filterMap pick =
      args.flatMap (fun arg => arg.nodes.filterMap pick) ++ callee.nodes.filterMap pick := by
  rw [nodes_call, nodesOfArgs_eq, List.filterMap_append, List.filterMap_append,
    List.filterMap_flatMap, List.filterMap_cons_none quiet, List.filterMap_nil, List.append_nil]

theorem filterMap_nodes_cast {kind : Cast} {operand : Expr}
    (quiet : pick (cast note kind operand) = none) :
    (cast note kind operand).nodes.filterMap pick = operand.nodes.filterMap pick := by
  rw [nodes_cast, List.filterMap_append, List.filterMap_cons_none quiet, List.filterMap_nil,
    List.append_nil]

end

def constant? : Expr → Option Constant
  | bool _ value => some (.int (if value then 1 else 0))
  | int _ value => some (.int value)
  | double _ value => some (.double value)
  | _ => none

def constants (e : Expr) : List Constant := e.nodes.filterMap constant?

section
variable (note : Note)

@[simp] theorem constants_bool (value : Bool) :
    (bool note value).constants = [.int (if value then 1 else 0)] := rfl

@[simp] theorem constants_int (value : Int32) : (int note value).constants = [.int value] := rfl

@[simp] theorem constants_double (value : Double) :
    (double note value).constants = [.double value] := rfl

@[simp] theorem constants_name (identifier : String) (binding : Option Binding) :
    (name note identifier binding).constants = [] := rfl

@[simp] theorem constants_binary (op : BinaryOp) (left right : Expr) :
    (binary note op left right).constants = left.constants ++ right.constants :=
  filterMap_nodes_binary constant? note rfl

@[simp] theorem constants_unary (op : UnaryOp) (operand : Expr) :
    (unary note op operand).constants = operand.constants :=
  filterMap_nodes_unary constant? note rfl

@[simp] theorem constants_assign (op : AssignOp) (target value : Expr) :
    (assign note op target value).constants = value.constants ++ target.constants :=
  filterMap_nodes_assign constant? note rfl

@[simp] theorem constants_call (callee : Expr) (args : List Expr) :
    (call note callee args).constants = args.flatMap constants ++ callee.constants :=
  filterMap_nodes_call constant? note rfl

@[simp] theorem constants_cast (kind : Cast) (operand : Expr) :
    (cast note kind operand).constants = operand.constants :=
  filterMap_nodes_cast constant? note rfl

end

/-- A node as it comes from the programmer: nothing filled in, and no cast. -/
def Blank : Expr → Prop
  | cast .. => False
  | name note _ binding => note.ty = none ∧ binding = none
  | e => e.ty = none

instance : DecidablePred Blank
  | cast .. => inferInstanceAs (Decidable False)
  | name note _ binding => inferInstanceAs (Decidable (note.ty = none ∧ binding = none))
  | bool note _ | int note _ | double note _ | binary note .. | unary note .. | assign note ..
  | call note .. => inferInstanceAs (Decidable (note.ty = none))

def Fresh (e : Expr) : Prop := ∀ node ∈ e.nodes, node.Blank

/-- A node that has been given a type, and a name what it stands for. -/
def Given : Expr → Prop
  | name note _ binding => note.ty.isSome ∧ binding.isSome
  | e => e.ty.isSome

instance : DecidablePred Fresh :=
  fun e => inferInstanceAs (Decidable (∀ node ∈ e.nodes, node.Blank))

end Expr

namespace Expr
variable (note : Note)

theorem fresh_within {e sub : Expr} (fresh : e.Fresh) (inside : sub ∈ e.nodes) : sub.Fresh :=
  fun node member => fresh node (e.nodes_within sub inside node member)

theorem fresh_binary {op : BinaryOp} {left right : Expr} :
    (binary note op left right).Fresh ↔ left.Fresh ∧ right.Fresh ∧ note.ty = none :=
  forall_nodes_binary.trans and_assoc

theorem fresh_unary {op : UnaryOp} {operand : Expr} :
    (unary note op operand).Fresh ↔ operand.Fresh ∧ note.ty = none :=
  forall_nodes_unary

theorem fresh_assign {op : AssignOp} {target value : Expr} :
    (assign note op target value).Fresh ↔ value.Fresh ∧ target.Fresh ∧ note.ty = none :=
  forall_nodes_assign.trans and_assoc

theorem fresh_call {callee : Expr} {args : List Expr} :
    (call note callee args).Fresh ↔
      (∀ arg ∈ args, arg.Fresh) ∧ callee.Fresh ∧ note.ty = none :=
  forall_nodes_call.trans and_assoc

theorem not_fresh_cast {kind : Cast} {operand : Expr} : ¬ (cast note kind operand).Fresh :=
  fun fresh => fresh _ (self_mem_nodes _)

end Expr

def Stmt.Fresh : Stmt → Prop
  | expr _ value => value.Fresh
  | declare _ decl => decl.id = none ∧ ∀ init ∈ decl.init, init.Fresh
  | enterIf _ condition => condition.Fresh
  | beginBlock _ | endBlock _ | leaveIf _ => True

instance : DecidablePred Stmt.Fresh
  | .expr _ value => inferInstanceAs (Decidable value.Fresh)
  | .declare _ decl =>
      inferInstanceAs (Decidable (decl.id = none ∧ ∀ init ∈ decl.init, init.Fresh))
  | .enterIf _ condition => inferInstanceAs (Decidable condition.Fresh)
  | .beginBlock _ | .endBlock _ | .leaveIf _ => inferInstanceAs (Decidable True)

namespace Function

def stmts (f : Function) : List Stmt := f.body.getD []

/-- The parameters that are variables of a body, in the order of their declaration. -/
def stored (f : Function) : List Param := if f.isHost then [] else f.params

section
variable (name : String) (returns : Ty) (params : List Param) (body : List Stmt) (line : Nat)
  (id : Option FunId)

@[simp] theorem stmts_some : stmts ⟨name, returns, params, some body, line, id⟩ = body := rfl

@[simp] theorem stmts_none : stmts ⟨name, returns, params, none, line, id⟩ = [] := rfl

@[simp] theorem stored_some :
    stored ⟨name, returns, params, some body, line, id⟩ = params := rfl

@[simp] theorem stored_none : stored ⟨name, returns, params, none, line, id⟩ = [] := rfl

end

end Function

theorem countP_first {α : Type} (holds : α → Bool) (first : α) (rest : List α) :
    (first :: rest).countP holds = (holds first).toNat + rest.countP holds := by
  rw [List.countP_cons]
  cases holds first <;> simp [Nat.add_comm]

def Stmt.names : Stmt → List String
  | declare _ decl => [decl.name]
  | _ => []

/-- The variables of a function: its parameters, if it has a body, and those of its statements. -/
def Function.names (f : Function) : List String :=
  f.stored.map Param.name ++ f.stmts.flatMap Stmt.names

def Item.names : Item → List String
  | function f => f.names
  | stmt s => s.names

namespace Program

def names (p : Program) : List String := p.items.flatMap Item.names

def bodies (p : Program) : List (List Stmt) := p.statements :: p.functions.map Function.stmts

theorem mem_functions {p : Program} {f : Function} :
    f ∈ p.functions ↔ .function f ∈ p.items := by
  simp only [functions, List.mem_filterMap]
  constructor
  · rintro ⟨item, member, found⟩
    cases item <;> cases found
    exact member
  · exact fun member => ⟨_, member, rfl⟩

theorem mem_statements {p : Program} {s : Stmt} : s ∈ p.statements ↔ .stmt s ∈ p.items := by
  simp only [statements, List.mem_filterMap]
  constructor
  · rintro ⟨item, member, found⟩
    cases item <;> cases found
    exact member
  · exact fun member => ⟨_, member, rfl⟩

end Program

def Function.FreshInside (f : Function) : Prop :=
  (∀ param ∈ f.params, param.id = none) ∧ ∀ body ∈ f.body, ∀ s ∈ body, s.Fresh

def Function.Fresh (f : Function) : Prop := f.id = none ∧ f.FreshInside

def Item.Fresh : Item → Prop
  | function f => f.Fresh
  | stmt s => s.Fresh

instance : DecidablePred Item.Fresh
  | .function f =>
      inferInstanceAs (Decidable (f.id = none ∧ (∀ param ∈ f.params, param.id = none) ∧
      ∀ body ∈ f.body, ∀ s ∈ body, s.Fresh))
  | .stmt s => inferInstanceAs (Decidable s.Fresh)

/-- A program as it is handed over: no type, binding or id is set and nothing is converted. -/
def Program.Fresh (p : Program) : Prop := ∀ item ∈ p.items, item.Fresh

instance : DecidablePred Program.Fresh := fun p =>
  inferInstanceAs (Decidable (∀ item ∈ p.items, item.Fresh))

/-! Nothing is left to fill in. -/

def Stmt.Filled (s : Stmt) : Prop :=
  (∀ root ∈ s.root?, ∀ node ∈ root.nodes, node.Given) ∧
    ∀ line decl, s = declare line decl → decl.id.isSome

/-- Only a function with a body has variables for its parameters. -/
def Function.Filled (f : Function) : Prop :=
  f.id.isSome ∧ (∀ param ∈ f.stored, param.id.isSome) ∧ ∀ s ∈ f.stmts, s.Filled

def Item.Filled : Item → Prop
  | function f => f.Filled
  | stmt s => s.Filled

def Program.Filled (p : Program) : Prop := ∀ item ∈ p.items, item.Filled

end StackCompiler
