import StackCompiler.Proofs.Scope.Confinement
import StackCompiler.Proofs.Typing.Skeleton

/-!
Where the variables of a function can be used.

The block of a body is checked by its depth alone, before and after. That makes a body close as many
blocks as it opens, but not in that order: one that closes a block first closes its own, and goes on
in the block around it. A function whose body keeps the blocks around it is sealed: no use of a
variable of it stands in another item.
-/
namespace StackCompiler

namespace Analysis
variable {a : Analysis}

theorem openBlock_depth {ledger next : Ledger} (opens : ledger.openBlock = .ok next) :
    next.depth = ledger.depth + 1 := by
  unfold Ledger.openBlock at opens
  split at opens
  · cases opens
  · cases opens
    rfl

theorem closeBlock_depth {ledger next : Ledger} (closes : ledger.closeBlock = .ok next) :
    next.depth + 1 = ledger.depth := by
  unfold Ledger.closeBlock at closes
  split at closes
  · cases closes
  · rename_i open_
    cases closes
    exact Nat.succ_pred_eq_of_pos (Nat.pos_of_ne_zero open_)

/-- Markers open and close one block each, and no other statement does. -/
theorem checkStmt_depth (s : Stmt) (ran : (checkStmt s a).stopped = none) :
    (checkStmt s a).state.ledger.depth + s.closes.toNat = a.ledger.depth + s.opens.toNat := by
  cases s with
  | expr | enterIf | leaveIf => rfl
  | declare line decl =>
      rcases decl with ⟨name, ty, _ | init, id⟩
      · exact congrArg Level.depth (checkDeclaration_level ..)
      · exact congrArg Level.depth (checkDeclaration_level ..)
  | beginBlock line =>
      unfold checkStmt crossing at ran ⊢
      cases opens : a.ledger.openBlock with
      | error fault => simp [opens, Visit.stop] at ran
      | ok next => exact openBlock_depth opens
  | endBlock line =>
      unfold checkStmt crossing at ran ⊢
      cases closes : a.ledger.closeBlock with
      | error fault => simp [closes, Visit.stop] at ran
      | ok next => exact closeBlock_depth closes

theorem each_depth (stmts : List Stmt) (ran : (Visit.each checkStmt stmts a).stopped = none) :
    (Visit.each checkStmt stmts a).state.ledger.depth + stmts.countP Stmt.closes =
      a.ledger.depth + stmts.countP Stmt.opens := by
  induction stmts generalizing a with
  | nil => rfl
  | cons s rest ih =>
      rcases Visit.each_ran ran with ⟨first, others, visit⟩
      have step := checkStmt_depth s first
      have later := ih others
      rw [visit, countP_first, countP_first]
      simp only [Visit.map]
      omega

theorem checkStmt_markers (s : Stmt) (a : Analysis) :
    ((checkStmt s a).node.opens, (checkStmt s a).node.closes) = (s.opens, s.closes) := by
  cases s with
  | expr | enterIf | leaveIf => rfl
  | declare line decl => rcases decl with ⟨name, ty, _ | init, id⟩ <;> rfl
  | beginBlock line | endBlock line =>
      exact congrArg (fun s => (Stmt.opens s, Stmt.closes s)) (crossing_node ..)

theorem evenBlocks_markers {stmts others : List Stmt}
    (same : others.map (fun s => (s.opens, s.closes)) = stmts.map fun s => (s.opens, s.closes)) :
    EvenBlocks others ↔ EvenBlocks stmts := by
  have opens := congrArg (List.countP Prod.fst) same
  have closes := congrArg (List.countP Prod.snd) same
  rw [List.countP_map, List.countP_map] at opens closes
  simp only [Function.comp_def] at opens closes
  rw [EvenBlocks, EvenBlocks, opens, closes]

theorem closeBody_level {outer : Nat} {ledger next : Ledger}
    (closes : closeBody outer ledger = .ok next) :
    ledger.depth = outer + 1 := by
  unfold closeBody at closes
  split at closes
  · cases closes
  · split at closes
    · cases closes
    · omega

theorem checkBody_even (f : Function) (body : List Stmt)
    (ran : (checkBody f body a).stopped = none) :
    EvenBlocks (checkBody f body a).node.stmts := by
  rcases checkBody_ran ran with ⟨ledger, next, opens, stopped, closes, visit⟩
  have depth := each_depth body stopped
  have entered :=
    congrArg Level.depth (declareParams_level f.line f.params ⟨ledger, a.diagnostics⟩)
  simp only [Ledger.level] at entered
  rw [closeBody_level closes, entered, openBlock_depth opens] at depth
  have even : EvenBlocks body := (Nat.add_left_cancel depth).symm
  rw [visit]
  exact (evenBlocks_markers (Visit.each_keeps checkStmt_markers body _)).mpr even

theorem checkItem_even {item : Item} {f : Function} (ran : (checkItem item a).stopped = none)
    (left : (checkItem item a).node = .function f) (registered : f.id.isSome) :
    EvenBlocks f.stmts := by
  cases item with
  | stmt s => cases left
  | function g =>
      rcases g with ⟨name, returns, params, body, line, id⟩
      match body, id with
      | some body, some id =>
          cases left
          exact checkBody_even _ body ran
      | none, _ =>
          cases left
          rfl
      | some body, none =>
          cases left
          cases registered

end Analysis

@[simp] theorem Function.resolve_id (functionOf : String → Option FunId) (f : Function)
    (v : Visible) :
    (f.resolve functionOf v).node.id = f.id := by
  unfold resolve
  split <;> rfl

theorem Function.markers_of_bare {f g : Function} (same : f.bare = g.bare) :
    (KeepsBlocks f.stmts ↔ KeepsBlocks g.stmts) ∧
      (EvenBlocks f.stmts ↔ EvenBlocks g.stmts) := by
  have stmts := congrArg Function.stmts same
  rw [bare_stmts, bare_stmts] at stmts
  rw [← keepsBlocks_bare, ← evenBlocks_bare, stmts, keepsBlocks_bare, evenBlocks_bare]
  exact ⟨Iff.rfl, Iff.rfl⟩

section
variable (functionOf : String → Option FunId) {v : Visible}
    (below : ∀ index, v.Sees index → index < v.count)
include below

/-- Variables declared later have ids that no use in the item before them has. -/
theorem unused_before (item : Item) (unchecked : Analysis.Unchecked item) {rest : List Item}
    (others : ∀ item ∈ rest, Analysis.Unchecked item) {id : VarId}
    (declared : id ∈ (resolveEach (Item.resolve functionOf) rest
      (item.resolve functionOf v).scope).node.flatMap Item.declared) :
    id ∉ (item.resolve functionOf v).node.uses := by
  intro used
  have first := item.resolve_confined functionOf unchecked v
  have later := resolveEach_confined rest (fun item inside => item.resolve_confined functionOf
    (others item inside)) (item.resolve functionOf v).scope
  have bounds := later.declares id declared
  rcases first.uses id used with seen | ⟨_, high⟩
  · have early := below _ seen
    have grows := first.grows
    omega
  · omega

/-- Behind a function that keeps the blocks around it the scope is as if the function were not
there. -/
theorem unused_behind (f : Function) (unchecked : Analysis.Unchecked (.function f))
    {rest : List Item} (others : ∀ item ∈ rest, Analysis.Unchecked item)
    (kept : KeepsBlocks (f.resolve functionOf v).node.stmts)
    (even : (f.resolve functionOf v).node.id.isSome →
      EvenBlocks (f.resolve functionOf v).node.stmts) {id : VarId}
    (declared : id ∈ (f.resolve functionOf v).node.declared) :
    id ∉ (resolveEach (Item.resolve functionOf) rest
      ((Item.function f).resolve functionOf v).scope).node.flatMap Item.uses := by
  intro used
  have markers := Function.markers_of_bare (f.resolve_bare functionOf v)
  have leaves := f.resolve_leaves functionOf v (markers.1.mp kept)
    fun registered => markers.2.mp (even (by simpa using registered))
  have bounds := ((Item.function f).resolve_confined functionOf unchecked v).declares id declared
  have later := resolveEach_confined rest (fun item inside => item.resolve_confined functionOf
    (others item inside)) ((Item.function f).resolve functionOf v).scope
  rcases later.uses id used with seen | ⟨low, _⟩
  · have before : v.Sees id.index := by
      rcases seen with ⟨entries, block, entry⟩
      refine ⟨entries, ?_, entry⟩
      rw [← leaves.1, ← leaves.2]
      exact block
    have early := below _ before
    omega
  · omega

end

/-- No use in another item is of a variable of a function that keeps the blocks around it. -/
theorem resolveEach_sealed (functionOf : String → Option FunId) (items : List Item) (v : Visible)
    (unchecked : ∀ item ∈ items, Analysis.Unchecked item)
    (even : ∀ f, .function f ∈ (resolveEach (Item.resolve functionOf) items v).node →
      f.id.isSome →
      EvenBlocks f.stmts)
    (below : ∀ index, v.Sees index → index < v.count)
    {place other : Nat} {f : Function} {item : Item} {id : VarId}
    (here : (resolveEach (Item.resolve functionOf) items v).node[place]? = some (.function f))
    (kept : KeepsBlocks f.stmts) (declared : id ∈ f.declared)
    (there : (resolveEach (Item.resolve functionOf) items v).node[other]? = some item)
    (used : id ∈ item.uses) : other = place := by
  induction items generalizing v place other with
  | nil => simp [resolveEach] at here
  | cons member rest ih =>
      rcases List.forall_mem_cons.mp unchecked with ⟨own, others⟩
      rw [resolveEach] at here there even
      cases place with
      | zero =>
          cases other with
          | zero => rfl
          | succ other =>
              cases member with
              | stmt s => cases here
              | function g =>
                  obtain rfl : (g.resolve functionOf v).node = f := by
                    simpa [Item.resolve] using here
                  refine absurd ?_ (unused_behind functionOf below g own others kept
                    (even _ List.mem_cons_self) declared)
                  exact List.mem_flatMap.mpr ⟨item, List.mem_of_getElem? there, used⟩
      | succ place =>
          cases other with
          | zero =>
              obtain rfl : (member.resolve functionOf v).node = item := by simpa using there
              refine absurd used (unused_before functionOf below member own others ?_)
              exact List.mem_flatMap.mpr ⟨.function f, List.mem_of_getElem? here, declared⟩
          | succ other =>
              have onward := confined_below (member.resolve_confined functionOf own v) below
              have even := fun f inside => even f (List.mem_cons_of_mem _ inside)
              exact congrArg (· + 1) (ih _ others even onward here there)

namespace Program

/-- In an analysed program every body that was looked into closes as many blocks as it opens. -/
theorem analyze_even {p : Program} {ledger : Ledger} (ended : (p.analyze ledger).stopped = none) :
    ∀ f ∈ (p.analyze ledger).node.functions, f.id.isSome → EvenBlocks f.stmts := by
  intro f member registered
  rcases analyze_ran ended with ⟨ran, _, visit⟩
  have inside : .function f ∈ (p.analyze ledger).node.items := mem_functions.mp member
  rw [visit] at inside
  rcases Visit.each_left ran inside with ⟨item, _, before, stepped, left⟩
  exact Analysis.checkItem_even stepped left registered

/-- In an analysed program every body that was looked into closes as many blocks as it opens. Where
a body moreover never closes a block it did not open, no other item uses a parameter or a variable
of the function. -/
theorem analyze_seals (p : Program) (fresh : p.Fresh) (limit : Nat)
    (ended : (p.analyze (.empty limit)).stopped = none) :
    let node := (p.analyze (.empty limit)).node
    (∀ f ∈ node.functions, f.id.isSome → EvenBlocks f.stmts) ∧
      ∀ (place other : Nat) (f : Function) (item : Item) (id : VarId),
        node.items[place]? = some (.function f) → KeepsBlocks f.stmts → id ∈ f.declared →
        node.items[other]? = some item → id ∈ item.uses → other = place := by
  intro node
  have even : ∀ f ∈ node.functions, f.id.isSome → EvenBlocks f.stmts := analyze_even ended
  refine ⟨even, fun place other f item id here kept declared there used => ?_⟩
  -- Types and casts play no part, so the question is one about the resolved program.
  have same : node.items.map Item.erased = p.resolve.node.items :=
    congrArg Program.items (analyze_erased fresh ended).1
  have erased : ∀ (place : Nat) (item : Item), node.items[place]? = some item →
      p.resolve.node.items[place]? = some item.erased := by
    intro place item found
    rw [← same, List.getElem?_map, found]
    rfl
  have evenErased : ∀ g, .function g ∈ p.resolve.node.items → g.id.isSome →
    EvenBlocks g.stmts := by
    intro g member registered
    rw [← same] at member
    rcases List.mem_map.mp member with ⟨item, inside, shape⟩
    cases item with
    | stmt s => cases shape
    | function f =>
        cases shape
        exact (Function.markers_of_bare f.bare_erased).2.mpr
          (even f (mem_functions.mpr inside) registered)
  have below : ∀ index, Visible.start.Sees index → index < Visible.start.count := by
    rintro index ⟨entries, block, entry, member, _⟩
    rw [List.mem_singleton.mp block] at member
    cases member
  have keptErased : KeepsBlocks f.erased.stmts :=
    (Function.markers_of_bare f.bare_erased).1.mpr kept
  have declaredErased : id ∈ f.erased.declared := by
    have same : f.erased.declared = f.declared := (Item.function f).erased_declared
    rw [same]
    exact declared
  have usedErased : id ∈ item.erased.uses := by
    rw [item.erased_uses]
    exact used
  exact resolveEach_sealed p.registered.functionOf p.registered.items .start
    (Analysis.numbered_unchecked [] p.items fresh) evenErased below (erased place _ here) keptErased
    declaredErased (erased other item there) usedErased

/-- A body that closes its own block, declares a variable in the block around it, and opens another
one to come out even. -/
def leaking : Program :=
  ⟨[.function ⟨"f", .int, [],
      some [.endBlock 2, .declare 3 ⟨"x", .int, none, none⟩, .beginBlock 4], 1, none⟩,
    .stmt (.expr 5 (.assign ⟨5, none⟩ .plain (.name ⟨5, none⟩ "x" none) (.int ⟨5, none⟩ 1)))]⟩

theorem leaking_leaks :
    leaking.Fresh ∧ (leaking.analyze (.empty 256)).stopped = none ∧
      (leaking.analyze (.empty 256)).state.diagnostics = #[] ∧
      (∃ f ∈ (leaking.analyze (.empty 256)).node.functions, ¬ KeepsBlocks f.stmts) ∧
      ∃ (f : Function) (item : Item) (id : VarId),
        (leaking.analyze (.empty 256)).node.items[0]? = some (.function f) ∧ id ∈ f.declared ∧
        (leaking.analyze (.empty 256)).node.items[1]? = some item ∧ id ∈ item.uses := by
  refine ⟨by decide, rfl, rfl, ⟨_, List.mem_cons_self, fun kept => ?_⟩,
    _, _, ⟨0⟩, rfl, ?_, rfl, ?_⟩
  · have first : 1 ≤ 0 := kept 1
    cases first
  · exact List.mem_cons_self
  · exact List.mem_cons_self

def keeping : Program :=
  ⟨[.function ⟨"f", .int, [⟨"a", .int, none⟩],
      some [.beginBlock 2, .declare 3 ⟨"x", .int, some (.name ⟨3, none⟩ "a" none), none⟩,
        .endBlock 4], 1, none⟩,
    .stmt (.expr 5 (.name ⟨5, none⟩ "x" none))]⟩

theorem keeping_seals :
    keeping.Fresh ∧ (keeping.analyze (.empty 256)).stopped = none ∧
      ∀ (other : Nat) (item : Item),
        (keeping.analyze (.empty 256)).node.items[other]? = some item →
          ⟨0⟩ ∈ item.uses → other = 0 := by
  have fresh : keeping.Fresh := by decide
  have ended : (keeping.analyze (.empty 256)).stopped = none := rfl
  refine ⟨fresh, ended, fun other item there used => ?_⟩
  exact (analyze_seals keeping fresh 256 ended).2 0 other _ item ⟨0⟩ rfl (by decide)
    List.mem_cons_self there used

end Program
end StackCompiler
