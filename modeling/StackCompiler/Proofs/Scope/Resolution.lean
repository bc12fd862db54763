import StackCompiler.Proofs.Language.Bare
import StackCompiler.Proofs.Scope.Frames

/-!
Lexical scoping, said on programs.

A program is resolved in one pass over its items with nothing but the variables in scope: those of
the innermost open block and of the blocks around it. A declaration takes effect behind its
initializer and only if its block does not have the name yet. A name that no variable in scope has
means the first function of that name, wherever it stands.
-/
namespace StackCompiler

/-- The variables in scope, the latest first, and how many were accepted so far. -/
structure Visible where
  inner : List Named
  outer : List (List Named)
  count : Nat
deriving DecidableEq, Repr

/-- A part of the tree with its names bound, the uses that stand for nothing, and the scope behind
it. -/
structure Resolved (α : Type) where
  node : α
  unknown : List (Nat × String)
  scope : Visible

namespace Visible

def start : Visible := ⟨[], [], 0⟩

def find (v : Visible) (name : String) : Option VarId :=
  ((v.inner :: v.outer).findSome? (latestOf name)).map VarId.mk

/-- A name that the innermost block already has is rejected and changes nothing. -/
def declare (v : Visible) (name : String) : Option VarId × Visible :=
  if (latestOf name v.inner).isSome then (none, v)
  else (some ⟨v.count⟩, ⟨⟨name, v.count⟩ :: v.inner, v.outer, v.count + 1⟩)

def opened (v : Visible) : Visible := ⟨[], v.inner :: v.outer, v.count⟩

def closed (v : Visible) : Visible :=
  match v.outer with
  | [] => v
  | around :: outer => ⟨around, outer, v.count⟩

def meaning (v : Visible) (functionOf : String → Option FunId) (name : String) : Option Binding :=
  match v.find name with
  | some id => some (.variable id)
  | none => (functionOf name).map Binding.function

end Visible

def resolveEach {α : Type} (resolve : α → Visible → Resolved α) :
    List α → Visible → Resolved (List α)
  | [], v => ⟨[], [], v⟩
  | member :: rest, v =>
      let first := resolve member v
      let rest := resolveEach resolve rest first.scope
      ⟨first.node :: rest.node, first.unknown ++ rest.unknown, rest.scope⟩

def Stmt.resolve (functionOf : String → Option FunId) (s : Stmt) (v : Visible) : Resolved Stmt :=
  let meaning := v.meaning functionOf
  match s with
  | expr line value => ⟨expr line (value.bound meaning), value.unbound meaning, v⟩
  | declare line decl =>
      let (id, next) := v.declare decl.name
      ⟨declare line { decl with init := decl.init.map (Expr.bound meaning), id },
        decl.init.elim [] (Expr.unbound meaning), next⟩
  | beginBlock line => ⟨beginBlock line, [], v.opened⟩
  | endBlock line => ⟨endBlock line, [], v.closed⟩
  | enterIf line condition =>
      ⟨enterIf line (condition.bound meaning), condition.unbound meaning, v⟩
  | leaveIf line => ⟨leaveIf line, [], v⟩

def resolveParams : List Param → Visible → List Param × Visible
  | [], v => ([], v)
  | param :: rest, v =>
      let (id, v) := v.declare param.name
      let (rest, v) := resolveParams rest v
      ({ param with id } :: rest, v)

/-- A body is resolved in a block of its own. A function without an id is not looked into. -/
def Function.resolve (functionOf : String → Option FunId) (f : Function) (v : Visible) :
    Resolved Function :=
  match f.body, f.id with
  | some body, some _ =>
      let (params, v) := resolveParams f.params v.opened
      let body := resolveEach (Stmt.resolve functionOf) body v
      ⟨{ f with params, body := some body.node }, body.unknown, body.scope.closed⟩
  | _, _ => ⟨f, [], v⟩

def Item.resolve (functionOf : String → Option FunId) (item : Item) (v : Visible) :
    Resolved Item :=
  match item with
  | function f =>
      let f := f.resolve functionOf v
      ⟨function f.node, f.unknown, f.scope⟩
  | stmt s =>
      let s := s.resolve functionOf v
      ⟨stmt s.node, s.unknown, s.scope⟩

/-- Gives an id to the first function of every name, counting the names already seen. -/
def numbered : (seen : List String) → List Item → List Item
  | _, [] => []
  | seen, .function f :: rest =>
      if f.name ∈ seen then .function f :: numbered seen rest
      else .function { f with id := some ⟨seen.length⟩ } :: numbered (f.name :: seen) rest
  | seen, .stmt s :: rest => .stmt s :: numbered seen rest

namespace Program

def registered (p : Program) : Program := ⟨numbered [] p.items⟩

def functionOf (p : Program) (name : String) : Option FunId :=
  (p.functions.find? (·.name == name)).bind Function.id

/-- The program with every name bound by lexical scoping, and the uses that stand for nothing. -/
def resolve (p : Program) : Resolved Program :=
  let r := resolveEach (Item.resolve p.registered.functionOf) p.registered.items .start
  ⟨⟨r.node⟩, r.unknown, r.scope⟩

end Program

/-! Resolving fills in bindings and ids and changes nothing else. -/

theorem Stmt.resolve_bare (functionOf : String → Option FunId) (s : Stmt) (v : Visible) :
    (s.resolve functionOf v).node.bare = s.bare := by
  cases s with
  | declare line decl =>
      obtain ⟨name, ty, init, id⟩ := decl
      cases init <;> simp [resolve, bare]
  | _ => simp [resolve, bare]

theorem resolveEach_bare {α : Type} {resolve : α → Visible → Resolved α} {bare : α → α}
    (one : ∀ member v, bare (resolve member v).node = bare member) (members : List α)
    (v : Visible) :
    (resolveEach resolve members v).node.map bare = members.map bare := by
  induction members generalizing v with
  | nil => rfl
  | cons member rest ih => simp only [resolveEach, List.map_cons, one, ih]

theorem resolveParams_bare (params : List Param) (v : Visible) :
    (resolveParams params v).1.map Param.bare = params.map Param.bare := by
  induction params generalizing v with
  | nil => rfl
  | cons param rest ih => simp only [resolveParams, List.map_cons, ih, Param.bare]

theorem Function.resolve_bare (functionOf : String → Option FunId) (f : Function) (v : Visible) :
    (f.resolve functionOf v).node.bare = f.bare := by
  obtain ⟨name, returns, params, body, line, id⟩ := f
  match body, id with
  | some body, some id =>
      have stmts := resolveEach_bare (Stmt.resolve_bare functionOf) body
      simp only [resolve, bare, Option.map_some, resolveParams_bare, stmts]
  | none, _ | some _, none => rfl

theorem Item.resolve_bare (functionOf : String → Option FunId) (item : Item) (v : Visible) :
    (item.resolve functionOf v).node.bare = item.bare := by
  cases item with
  | function f => exact congrArg function (f.resolve_bare functionOf v)
  | stmt s => exact congrArg stmt (s.resolve_bare functionOf v)

theorem numbered_bare (seen : List String) (items : List Item) :
    (numbered seen items).map Item.bare = items.map Item.bare := by
  induction items generalizing seen with
  | nil => rfl
  | cons item rest ih =>
      cases item with
      | stmt s => simp only [numbered, List.map_cons, ih]
      | function f =>
          rw [numbered]
          split
          · simp only [List.map_cons, ih]
          · simp only [List.map_cons, ih]
            rfl

theorem Program.resolve_bare (p : Program) : p.resolve.node.bare = p.bare := by
  refine congrArg Program.mk ?_
  exact (resolveEach_bare (Item.resolve_bare _) _ _).trans (numbered_bare [] p.items)

end StackCompiler
