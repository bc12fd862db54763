import StackCompiler.Proofs.Scope.Resolution
import StackCompiler.Proofs.Typing.Clean

/-!
How far a variable reaches.

A part of a program can name the variables that were in scope before it and those accepted in it,
and leaves no others in scope: `Confined`. A body that closes only blocks it opened leaves the
blocks around it alone, so behind it nothing of it is in scope any more.
-/
namespace StackCompiler

def Expr.used? : Expr → Option VarId
  | name _ _ (some (.variable id)) => some id
  | _ => none

def Expr.uses (e : Expr) : List VarId := e.nodes.filterMap used?

namespace Stmt

def uses (s : Stmt) : List VarId := s.root?.toList.flatMap Expr.uses

def opens : Stmt → Bool
  | beginBlock _ => true
  | _ => false

def closes : Stmt → Bool
  | endBlock _ => true
  | _ => false

end Stmt

def Function.uses (f : Function) : List VarId := f.stmts.flatMap Stmt.uses

def Item.uses : Item → List VarId
  | function f => f.uses
  | stmt s => s.uses

/-- A body that never closes a block it did not open. -/
def KeepsBlocks (stmts : List Stmt) : Prop :=
  ∀ n, (stmts.take n).countP Stmt.closes ≤ (stmts.take n).countP Stmt.opens

-- Beyond the length of a list its prefixes are the list.
theorem keepsBlocks_within {stmts : List Stmt} :
    (∀ n < stmts.length + 1, (stmts.take n).countP Stmt.closes ≤
      (stmts.take n).countP Stmt.opens) ↔
      KeepsBlocks stmts := by
  constructor
  · intro kept n
    by_cases within : n < stmts.length + 1
    · exact kept n within
    · have whole := kept stmts.length (Nat.lt_succ_self _)
      rw [List.take_of_length_le (by omega)]
      rwa [List.take_length] at whole
  · exact fun kept n _ => kept n

instance : DecidablePred KeepsBlocks := fun _ => decidable_of_iff _ keepsBlocks_within

/-- A body that opens as many blocks as it closes. -/
def EvenBlocks (stmts : List Stmt) : Prop := stmts.countP Stmt.opens = stmts.countP Stmt.closes

/-! Uses and markers are the same in a tree without its types. -/

namespace Expr
variable (note : Note)

@[simp] theorem uses_bool (value : Bool) : (bool note value).uses = [] := rfl

@[simp] theorem uses_int (value : Int32) : (int note value).uses = [] := rfl

@[simp] theorem uses_double (value : Double) : (double note value).uses = [] := rfl

@[simp] theorem uses_binary (op : BinaryOp) (left right : Expr) :
    (binary note op left right).uses = left.uses ++ right.uses :=
  filterMap_nodes_binary used? note rfl

@[simp] theorem uses_unary (op : UnaryOp) (operand : Expr) :
    (unary note op operand).uses = operand.uses :=
  filterMap_nodes_unary used? note rfl

@[simp] theorem uses_assign (op : AssignOp) (target value : Expr) :
    (assign note op target value).uses = value.uses ++ target.uses :=
  filterMap_nodes_assign used? note rfl

@[simp] theorem uses_call (callee : Expr) (args : List Expr) :
    (call note callee args).uses = args.flatMap uses ++ callee.uses :=
  filterMap_nodes_call used? note rfl

@[simp] theorem uses_cast (kind : Cast) (operand : Expr) :
    (cast note kind operand).uses = operand.uses :=
  filterMap_nodes_cast used? note rfl

@[simp] theorem erased_uses (e : Expr) : e.erased.uses = e.uses := by
  induction e with
  | bool | int | double => rfl
  | name note identifier binding =>
      match binding with
      | none | some (.variable _) | some (.function _) => rfl
  | binary note op left right first second => simp only [erased, uses_binary, first, second]
  | unary note op operand inner => simp only [erased, uses_unary, inner]
  | assign note op target value first second => simp only [erased, uses_assign, first, second]
  | call note callee args target inner =>
      simp only [erased, erasedArgs_eq, uses_call, target, List.flatMap_map]
      rw [List.flatMap_def, List.flatMap_def, List.map_congr_left inner]
  | cast note kind operand inner => simp only [erased, uses_cast, inner]

theorem fresh_uses {e : Expr} (fresh : e.Fresh) : e.uses = [] := by
  refine List.filterMap_eq_nil_iff.mpr fun node member => ?_
  have blank := fresh node member
  cases node with
  | name note identifier binding =>
      cases blank.2
      rfl
  | _ => rfl

theorem bound_uses {lookup : String → Option Binding} {e : Expr} {id : VarId}
    (used : id ∈ (e.bound lookup).uses) : ∃ name, lookup name = some (.variable id) := by
  induction e with
  | bool | int | double => cases used
  | name note identifier binding =>
      refine ⟨identifier, ?_⟩
      cases found : lookup identifier with
      | none => simp [bound, uses, nodes, used?, found] at used
      | some meaning => cases meaning <;> simp_all [bound, uses, nodes, used?]
  | binary note op left right first second =>
      rcases List.mem_append.mp (uses_binary .. ▸ used) with used | used
      · exact first used
      · exact second used
  | unary note op operand inner => exact inner (uses_unary .. ▸ used)
  | assign note op target value first second =>
      rcases List.mem_append.mp (uses_assign .. ▸ used) with used | used
      · exact second used
      · exact first used
  | call note callee args target inner =>
      rw [bound, uses_call, boundArgs_eq, List.flatMap_map] at used
      rcases List.mem_append.mp used with used | used
      · rcases List.mem_flatMap.mp used with ⟨arg, member, used⟩
        exact inner arg member used
      · exact target used
  | cast note kind operand inner => exact inner (uses_cast .. ▸ used)

end Expr

namespace Stmt

@[simp] theorem erased_uses (s : Stmt) : s.erased.uses = s.uses := by
  cases s with
  | declare line decl =>
      rcases decl with ⟨name, ty, init, id⟩
      cases init <;> simp [erased, uses, root?]
  | _ => simp [erased, uses, root?]

@[simp] theorem erased_declared (s : Stmt) : s.erased.declared = s.declared := by
  cases s <;> rfl

@[simp] theorem bare_opens (s : Stmt) : s.bare.opens = s.opens := by
  cases s <;> rfl

@[simp] theorem bare_closes (s : Stmt) : s.bare.closes = s.closes := by
  cases s <;> rfl

theorem fresh_uses {s : Stmt} (fresh : s.Fresh) : s.uses = [] := by
  cases s with
  | expr line value => simp [uses, root?, Expr.fresh_uses fresh]
  | declare line decl =>
      rcases decl with ⟨name, ty, init, id⟩
      cases init with
      | none => rfl
      | some init => simp [uses, root?, Expr.fresh_uses (fresh.2 init rfl)]
  | enterIf line condition => simp [uses, root?, Expr.fresh_uses fresh]
  | beginBlock | endBlock | leaveIf => rfl

end Stmt

namespace Function

theorem fresh_uses {f : Function} (fresh : f.FreshInside) : f.uses = [] := by
  refine List.flatMap_eq_nil_iff.mpr fun s member => ?_
  rcases f with ⟨name, returns, params, _ | body, line, id⟩
  · cases member
  · exact Stmt.fresh_uses (fresh.2 body rfl s member)

end Function

theorem Item.erased_uses (item : Item) : item.erased.uses = item.uses := by
  cases item with
  | stmt s => exact s.erased_uses
  | function f =>
      rcases f with ⟨name, returns, params, _ | body, line, id⟩
      · rfl
      · simp [erased, uses, Function.erased, Function.uses, List.flatMap_map]

theorem Item.erased_declared (item : Item) : item.erased.declared = item.declared := by
  cases item with
  | stmt s => exact s.erased_declared
  | function f =>
      rcases f with ⟨name, returns, params, _ | body, line, id⟩
      · rfl
      · simp [erased, declared, Function.erased, Function.declared, List.flatMap_map]

theorem keepsBlocks_bare {stmts : List Stmt} :
    KeepsBlocks (stmts.map Stmt.bare) ↔ KeepsBlocks stmts := by
  simp [KeepsBlocks, ← List.map_take, List.countP_map, Function.comp_def]

theorem evenBlocks_bare {stmts : List Stmt} :
    EvenBlocks (stmts.map Stmt.bare) ↔ EvenBlocks stmts := by
  simp [EvenBlocks, List.countP_map, Function.comp_def]

namespace Visible

def Sees (v : Visible) (index : Nat) : Prop :=
  ∃ entries ∈ v.inner :: v.outer, ∃ entry ∈ entries, entry.index = index

variable {v : Visible} {index : Nat}

theorem find_sees {name : String} {id : VarId} (found : v.find name = some id) :
    v.Sees id.index := by
  rcases Option.map_eq_some_iff.mp found with ⟨place, known, rfl⟩
  rcases List.exists_of_findSome?_eq_some known with ⟨entries, block, latest⟩
  rcases Option.map_eq_some_iff.mp latest with ⟨entry, first, same⟩
  exact ⟨entries, block, entry, List.mem_of_find?_eq_some first, same⟩

theorem meaning_sees {functionOf : String → Option FunId} {name : String} {id : VarId}
    (found : v.meaning functionOf name = some (.variable id)) : v.Sees id.index := by
  unfold meaning at found
  split at found
  · rename_i place known
    cases found
    exact find_sees known
  · rcases Option.map_eq_some_iff.mp found with ⟨_, _, impossible⟩
    cases impossible

theorem declare_outer (v : Visible) (name : String) : (v.declare name).2.outer = v.outer := by
  unfold declare
  split <;> rfl

theorem opened_sees : v.opened.Sees index ↔ v.Sees index := by
  simp [Sees, opened]

theorem closed_sees (seen : v.closed.Sees index) : v.Sees index := by
  rcases v with ⟨inner, outer, count⟩
  cases outer with
  | nil => exact seen
  | cons around outer =>
      rcases seen with ⟨entries, block, entry⟩
      exact ⟨entries, List.mem_cons_of_mem _ block, entry⟩

end Visible

/-- A part that was resolved from one scope to another: its uses are of variables in scope before it
or accepted in it, and so is all that it leaves in scope. -/
structure Confined (uses declared : List VarId) (v after : Visible) : Prop where
  grows : v.count ≤ after.count
  declares : ∀ id ∈ declared, v.count ≤ id.index ∧ id.index < after.count
  uses : ∀ id ∈ uses, v.Sees id.index ∨ v.count ≤ id.index ∧ id.index < after.count
  scope : ∀ index, after.Sees index → v.Sees index ∨ v.count ≤ index ∧ index < after.count

section
variable {uses declared : List VarId} {v after last : Visible}

theorem confined_same (v : Visible) : Confined [] [] v v :=
  ⟨Nat.le_refl _, by simp, by simp, fun _ seen => .inl seen⟩

theorem confined_append {later others : List VarId} (first : Confined uses declared v after)
    (second : Confined later others after last) :
    Confined (uses ++ later) (declared ++ others) v last := by
  have grows := Nat.le_trans first.grows second.grows
  have early : ∀ index, v.Sees index ∨ v.count ≤ index ∧ index < after.count →
      v.Sees index ∨ v.count ≤ index ∧ index < last.count := by
    rintro index (seen | ⟨low, high⟩)
    · exact .inl seen
    · exact .inr ⟨low, Nat.lt_of_lt_of_le high second.grows⟩
  have late : ∀ index, after.Sees index ∨ after.count ≤ index ∧ index < last.count →
      v.Sees index ∨ v.count ≤ index ∧ index < last.count := by
    rintro index (seen | ⟨low, high⟩)
    · exact early index (first.scope index seen)
    · exact .inr ⟨Nat.le_trans first.grows low, high⟩
  constructor
  · exact grows
  · intro id member
    rcases List.mem_append.mp member with member | member
    · have bounds := first.declares id member
      exact ⟨bounds.1, Nat.lt_of_lt_of_le bounds.2 second.grows⟩
    · have bounds := second.declares id member
      exact ⟨Nat.le_trans first.grows bounds.1, bounds.2⟩
  · intro id member
    rcases List.mem_append.mp member with member | member
    · exact early id.index (first.uses id member)
    · exact late id.index (second.uses id member)
  · exact fun index seen => late index (second.scope index seen)

theorem confined_below (confined : Confined uses declared v after)
    (below : ∀ index, v.Sees index → index < v.count) :
    ∀ index, after.Sees index → index < after.count := by
  -- Ids are given out in order, and what is in scope has been given out.
  intro index seen
  rcases confined.scope index seen with seen | ⟨_, high⟩
  · exact Nat.lt_of_lt_of_le (below index seen) confined.grows
  · exact high

theorem confined_still (used : ∀ id ∈ uses, v.Sees id.index) (count : after.count = v.count)
    (scope : ∀ index, after.Sees index → v.Sees index) : Confined uses [] v after :=
  ⟨Nat.le_of_eq count.symm, by simp, fun id member => .inl (used id member),
    fun index seen => .inl (scope index seen)⟩

theorem declare_confined (v : Visible) (name : String) :
    Confined [] (v.declare name).1.toList v (v.declare name).2 := by
  unfold Visible.declare
  split
  · exact confined_same v
  · refine ⟨Nat.le_succ _, by simp, by simp, ?_⟩
    rintro index ⟨entries, block, entry, member, rfl⟩
    rcases List.mem_cons.mp block with rfl | around
    · rcases List.mem_cons.mp member with rfl | before
      · exact .inr ⟨Nat.le_refl _, Nat.lt_succ_self _⟩
      · exact .inl ⟨v.inner, List.mem_cons_self, entry, before, rfl⟩
    · exact .inl ⟨entries, List.mem_cons_of_mem _ around, entry, member, rfl⟩

end

theorem Stmt.resolve_confined (functionOf : String → Option FunId) (s : Stmt) (v : Visible) :
    Confined (s.resolve functionOf v).node.uses (s.resolve functionOf v).node.declared v
      (s.resolve functionOf v).scope := by
  have seen : ∀ e : Expr, ∀ id ∈ (e.bound (v.meaning functionOf)).uses, v.Sees id.index := by
    intro e id used
    rcases Expr.bound_uses used with ⟨name, found⟩
    exact Visible.meaning_sees found
  cases s with
  | expr line value =>
      refine confined_still (fun id used => ?_) rfl fun _ seen => seen
      simp only [resolve, uses, root?, Option.toList_some, List.flatMap_singleton] at used
      exact seen value id used
  | enterIf line condition =>
      refine confined_still (fun id used => ?_) rfl fun _ seen => seen
      simp only [resolve, uses, root?, Option.toList_some, List.flatMap_singleton] at used
      exact seen condition id used
  | declare line decl =>
      rcases decl with ⟨name, ty, init, id⟩
      -- The initializer is resolved before its own declaration takes effect.
      have first :
          Confined (init.toList.flatMap fun init => (init.bound (v.meaning functionOf)).uses) [] v
            v := by
        refine confined_still (fun id used => ?_) rfl fun _ seen => seen
        rcases List.mem_flatMap.mp used with ⟨init, _, used⟩
        exact seen init id used
      have both := confined_append first (declare_confined v name)
      rw [List.append_nil, List.nil_append] at both
      cases init with
      | none => exact both
      | some init => exact both
  | beginBlock line =>
      exact confined_still (by simp [resolve, uses, root?]) rfl fun _ => Visible.opened_sees.mp
  | endBlock line =>
      refine confined_still (by simp [resolve, uses, root?]) ?_ fun _ => Visible.closed_sees
      rcases v with ⟨inner, outer, count⟩
      cases outer <;> rfl
  | leaveIf line => exact confined_still (by simp [resolve, uses, root?]) rfl fun _ seen => seen

theorem resolveEach_confined {α : Type} {resolve : α → Visible → Resolved α}
    {uses declared : α → List VarId} (members : List α)
    (one : ∀ member ∈ members, ∀ v,
      Confined (uses (resolve member v).node) (declared (resolve member v).node)
      v (resolve member v).scope) (v : Visible) :
    Confined ((resolveEach resolve members v).node.flatMap uses)
      ((resolveEach resolve members v).node.flatMap declared) v
        (resolveEach resolve members v).scope := by
  induction members generalizing v with
  | nil => exact confined_same v
  | cons member rest ih =>
      rcases List.forall_mem_cons.mp one with ⟨first, others⟩
      exact confined_append (first v) (ih others _)

theorem resolveParams_confined (params : List Param) (v : Visible) :
    Confined [] ((resolveParams params v).1.flatMap fun param => param.id.toList) v
      (resolveParams params v).2 := by
  induction params generalizing v with
  | nil => exact confined_same v
  | cons param rest ih => exact confined_append (declare_confined v param.name) (ih _)

theorem Function.resolve_confined (functionOf : String → Option FunId) (f : Function)
    (fresh : f.FreshInside) (v : Visible) :
    Confined (f.resolve functionOf v).node.uses (f.resolve functionOf v).node.declared v
      (f.resolve functionOf v).scope := by
  have skipped : Confined f.uses f.declared v v := by
    rw [fresh_uses fresh, Analysis.fresh_declared fresh]
    exact confined_same v
  rcases f with ⟨name, returns, params, body, line, id⟩
  match body, id with
  | none, _ | some _, none => exact skipped
  | some body, some id =>
      have opening : Confined [] [] v v.opened :=
        confined_still (by simp) rfl fun _ => Visible.opened_sees.mp
      have stmts := resolveEach_confined body (fun s _ => s.resolve_confined functionOf)
        (resolveParams params v.opened).2
      have inside :=
        confined_append (confined_append opening (resolveParams_confined params _)) stmts
      have closing : ∀ last : Visible, Confined [] [] last last.closed := fun last => by
        refine confined_still (by simp) ?_ fun _ => Visible.closed_sees
        rcases last with ⟨inner, outer, count⟩
        cases outer <;> rfl
      simpa [Function.uses, Function.declared, resolve] using confined_append inside (closing _)

theorem Item.resolve_confined (functionOf : String → Option FunId) (item : Item)
    (fresh : Analysis.Unchecked item) (v : Visible) :
    Confined (item.resolve functionOf v).node.uses (item.resolve functionOf v).node.declared v
      (item.resolve functionOf v).scope := by
  cases item with
  | function f => exact f.resolve_confined functionOf fresh v
  | stmt s => exact s.resolve_confined functionOf v

/-! A body that keeps the blocks around it. -/

theorem Stmt.resolve_around (functionOf : String → Option FunId) (s : Stmt) {v : Visible}
    {own around : List (List Named)} (split : v.outer = own ++ around)
    (room : s.closes.toNat ≤ own.length) :
    ∃ next, (s.resolve functionOf v).scope.outer = next ++ around ∧
      next.length + s.closes.toNat = own.length + s.opens.toNat := by
  cases s with
  | beginBlock line => exact ⟨v.inner :: own, by simp [resolve, Visible.opened, split], rfl⟩
  | endBlock line =>
      cases own with
      | nil => cases room
      | cons block own =>
          refine ⟨own, ?_, rfl⟩
          simp only [resolve, Visible.closed, split, List.cons_append]
  | declare line decl =>
      refine ⟨own, ?_, rfl⟩
      rw [← split]
      exact Visible.declare_outer ..
  | expr | enterIf | leaveIf => exact ⟨own, split, rfl⟩

theorem resolveEach_around (functionOf : String → Option FunId) (stmts : List Stmt) {v : Visible}
    {own around : List (List Named)} (split : v.outer = own ++ around)
    (kept : ∀ n, (stmts.take n).countP Stmt.closes ≤
      own.length + (stmts.take n).countP Stmt.opens) :
    ∃ next, (resolveEach (Stmt.resolve functionOf) stmts v).scope.outer = next ++ around ∧
      next.length + stmts.countP Stmt.closes = own.length + stmts.countP Stmt.opens := by
  induction stmts generalizing v own with
  | nil => exact ⟨own, split, rfl⟩
  | cons s rest ih =>
      have single : s.closes.toNat ≤ own.length := by
        have here := kept 1
        rw [List.take_succ_cons, countP_first, countP_first, List.take_zero] at here
        cases s <;> simp_all [Stmt.closes, Stmt.opens]
      rcases s.resolve_around functionOf split single with ⟨middle, outer, size⟩
      have later : ∀ n, (rest.take n).countP Stmt.closes ≤
          middle.length + (rest.take n).countP Stmt.opens := by
        intro n
        have here := kept (n + 1)
        rw [List.take_succ_cons, countP_first, countP_first] at here
        omega
      rcases ih outer later with ⟨next, last, total⟩
      refine ⟨next, last, ?_⟩
      rw [countP_first, countP_first]
      omega

/-- Behind a function whose body keeps the blocks around it, the scope is the one before it. -/
theorem Function.resolve_leaves (functionOf : String → Option FunId) (f : Function) (v : Visible)
    (kept : KeepsBlocks f.stmts) (even : f.id.isSome → EvenBlocks f.stmts) :
    (f.resolve functionOf v).scope.inner = v.inner ∧
      (f.resolve functionOf v).scope.outer = v.outer := by
  rcases f with ⟨name, returns, params, body, line, id⟩
  match body, id with
  | none, _ | some _, none => exact ⟨rfl, rfl⟩
  | some body, some id =>
      have params_around :
          ∀ (params : List Param) (v : Visible), (resolveParams params v).2.outer = v.outer := by
        intro params
        induction params with
        | nil => exact fun v => rfl
        | cons param rest ih =>
            intro v
            exact (ih _).trans (Visible.declare_outer ..)
      have split : (resolveParams params v.opened).2.outer = [] ++ (v.inner :: v.outer) :=
        params_around _ _
      rcases resolveEach_around functionOf body split (by simpa [KeepsBlocks] using kept) with
        ⟨next, outer, size⟩
      have level : next = [] := by
        have even : body.countP Stmt.opens = body.countP Stmt.closes := even rfl
        rw [even, List.length_nil] at size
        exact List.length_eq_zero_iff.mp (by omega)
      subst level
      simp only [resolve, Visible.closed, outer, List.nil_append]
      trivial

end StackCompiler
