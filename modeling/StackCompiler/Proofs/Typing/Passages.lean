import StackCompiler.Proofs.Typing.Elaboration
import StackCompiler.Proofs.Walk.Watching

/-!
What is reported while an expression is visited.

Checking a statement is the walk whose hooks type a node when it is left. Watching that walk gives
the state at the moment an expression is entered and at the moment it is left; an expression has no
type in the end exactly when something was reported between the two.
-/
namespace StackCompiler

/-- Types a node whose operands have been typed. -/
def Ledger.typeNode (ledger : Ledger) : Expr → Typed Expr
  | .bool note value => ⟨.bool ⟨note.line, some .boolean⟩ value, []⟩
  | .int note value => ⟨.int ⟨note.line, some .int⟩ value, []⟩
  | .double note value => ⟨.double ⟨note.line, some .double⟩ value, []⟩
  | .name note name binding => ledger.typeName note.line name binding
  | .binary note op left right => Typing.binary note.line op left right
  | .unary note op operand => Typing.unary note.line op operand
  | .assign note op target value => Typing.assign note.line op target value
  | .call note callee args => ledger.typeCall note.line callee args
  | .cast note kind operand => ⟨Typing.cast note.line kind operand, []⟩

namespace Analysis

/-- The hooks of checking: a block is opened or closed when its marker is entered, all else is
checked when it is left. -/
def typing : Editor Analysis Fault where
  enterExpr e a := .done e a
  betweenExpr e a := .done e a
  leaveExpr e a :=
    let typed := a.ledger.typeNode e
    .done typed.node (a.report typed.diagnostics)
  enterStmt s a :=
    match s with
    | .beginBlock _ => crossing s a Ledger.openBlock
    | .endBlock _ => crossing s a Ledger.closeBlock
    | _ => .done s a
  leaveStmt s a :=
    match s with
    | .declare line decl =>
        let (decl, a) := checkDeclaration line decl a
        .done (.declare line decl) a
    | .enterIf line condition => .done s (a.report (conditionDiagnostics line condition))
    | _ => .done s a

@[simp] theorem report_nil (a : Analysis) : a.report [] = a := by
  simp [report]

@[simp] theorem report_report (a : Analysis) (first second : List Diagnostic) :
    (a.report first).report second = a.report (first ++ second) := by
  refine congrArg (Analysis.mk a.ledger) (Array.ext' ?_)
  simp [report]

@[simp] theorem report_ledger (a : Analysis) (found : List Diagnostic) :
    (a.report found).ledger = a.ledger := rfl

/-- A passage on which something was reported exactly if its node was left without a type. -/
def Told (passage : Passage Analysis) : Prop :=
  ∃ found, passage.after = passage.before.report found ∧
    (passage.node.ty = none ↔ found ≠ [])

/-- Passages of the given nodes, in order, that are all told. -/
structure Tells (passages : List (Passage Analysis)) (nodes : List Expr) : Prop where
  nodes : passages.map Passage.node = nodes
  told : ∀ passage ∈ passages, Told passage

theorem tells_nil : Tells [] [] := ⟨rfl, by simp⟩

theorem Tells.append {early late : List (Passage Analysis)} {first second : List Expr}
    (tells : Tells early first) (follow : Tells late second) :
    Tells (early ++ late) (first ++ second) :=
  ⟨by rw [List.map_append, tells.nodes,
    follow.nodes], List.forall_mem_append.mpr ⟨tells.told, follow.told⟩⟩

/-- Watched from `a` on, a walk comes to what the visit comes to, and its passages tell of the
nodes. -/
def Follows {α : Type} (walk : Watched Analysis → Visit (Watched Analysis) (Halt Fault) α)
    (a : Analysis) (visit : Checking α) (nodes : List Expr) : Prop :=
  ∃ new : List (Passage Analysis),
    (∀ entered passages, walk ⟨a, entered, passages⟩ =
      ⟨visit.node, ⟨visit.state, entered, passages ++ new⟩,
        visit.stopped.map Halt.failed⟩) ∧ Tells new nodes

theorem each_follows {α : Type}
    {walk : α → Watched Analysis → Visit (Watched Analysis) (Halt Fault) α}
    {check : α → Analysis → Checking α} {parts : α → List Expr} {members : List α}
    (one : ∀ member ∈ members, ∀ a,
      Follows (walk member) a (check member a) (parts (check member a).node))
    {a : Analysis} (ran : (Visit.each check members a).stopped = none) :
    Follows (Visit.each walk members) a (Visit.each check members a)
      ((Visit.each check members a).node.flatMap parts) := by
  induction members generalizing a with
  | nil => exact ⟨[], by simp [Visit.done], tells_nil⟩
  | cons member rest ih =>
      rcases Visit.each_ran ran with ⟨here, others, visit⟩
      rcases List.forall_mem_cons.mp one with ⟨first, inside⟩
      rcases first a with ⟨early, walks, tells⟩
      rcases ih inside others with ⟨late, follows, follow⟩
      rw [visit]
      refine ⟨early ++ late, fun entered passages => ?_, tells.append follow⟩
      rw [Visit.each_cons, walks, here]
      simp only [Option.map_none, follows, Visit.map, List.append_assoc]

/-! Expressions. -/

def checkExpr (e : Expr) (a : Analysis) : Checking Expr :=
  .done (a.ledger.typeExpr e).node (a.report (a.ledger.typeExpr e).diagnostics)

theorem each_checkExpr (args : List Expr) (a : Analysis) :
    Visit.each checkExpr args a =
      .done (a.ledger.typeArgs args).node (a.report (a.ledger.typeArgs args).diagnostics) := by
  induction args generalizing a with
  | nil => simp [Ledger.typeArgs]
  | cons arg rest ih =>
      rw [Visit.each_cons]
      simp only [checkExpr, Visit.done]
      rw [ih]
      simp [Ledger.typeArgs, Visit.map, Visit.done]

def Walks (depth : Nat) (a : Analysis) (e : Expr) : Prop :=
  Follows (typing.watched.walkExpr depth e) a (checkExpr e a) (a.ledger.typeExpr e).node.originals

theorem watched_walk (depth : Nat) (e : Expr) (w : Watched Analysis) :
    typing.watched.walkExpr (depth + 1) e w =
      ((e.visitFirst (typing.watched.walkExpr depth) (w.enter w.state)).andThen fun e w =>
        e.visitSecond (typing.watched.walkExpr depth) w).andThen fun e w =>
          (typing.watched.leaveExpr e w).mapStopped Halt.failed := by
  -- Nothing happens before the operands or between them, so a node is visited in two steps.
  have entering : ∀ e w, typing.watched.enterExpr e w = .done e (w.enter w.state) :=
    fun _ _ => rfl
  have between : ∀ e w, typing.watched.betweenExpr e w = .done e w := fun _ _ => rfl
  exact Editor.walkExpr_steps entering between depth e w

/-- A node walks if its operands do: then they are typed, and leaving it types the node. -/
theorem walks_whole {depth : Nat} {a : Analysis} {e : Expr} (middle : Expr)
    (found : List Diagnostic) (new : List (Passage Analysis)) (fresh : e.Fresh)
    (operands : ∀ entered passages,
      ((e.visitFirst (typing.watched.walkExpr depth) ⟨a, entered, passages⟩).andThen fun e w =>
        e.visitSecond (typing.watched.walkExpr depth) w) =
          .done middle ⟨a.report found, entered, passages ++ new⟩)
    (typed : a.ledger.typeExpr e =
      ⟨(a.ledger.typeNode middle).node, found ++ (a.ledger.typeNode middle).diagnostics⟩)
    (parts : List Expr) (made : (a.ledger.typeExpr e).node.MadeOf parts)
    (tells : Tells new (parts.flatMap Expr.originals)) : Walks (depth + 1) a e := by
  have own : Tells [⟨a, a.report (a.ledger.typeExpr e).diagnostics, (a.ledger.typeExpr e).node⟩]
      [(a.ledger.typeExpr e).node] :=
    ⟨rfl, List.forall_mem_singleton.mpr ⟨_, rfl, a.ledger.typeExpr_untyped e fresh⟩⟩
  rw [Walks, made.originals]
  refine ⟨_, ?_, tells.append own⟩
  · intro entered passages
    have leaving :
      typing.watched.leaveExpr middle ⟨a.report found, a :: entered, passages ++ new⟩ =
        .done (a.ledger.typeNode middle).node
          ⟨(a.report found).report (a.ledger.typeNode middle).diagnostics, entered,
            passages ++ new ++ [⟨a, (a.report found).report (a.ledger.typeNode middle).diagnostics,
              (a.ledger.typeNode middle).node⟩]⟩ := rfl
    rw [watched_walk, Watched.enter, operands, Visit.done_andThen, leaving, Visit.done_mapStopped,
      checkExpr, typed, report_report, List.append_assoc]
    rfl

theorem walks_leaf (depth : Nat) (a : Analysis) {e : Expr} (fresh : e.Fresh) (leaf : e.nodes = [e])
    (alone : ∀ (visit : Expr → Watched Analysis →
      Visit (Watched Analysis) (Halt Fault) Expr) (w : Watched Analysis),
      ((e.visitFirst visit w).andThen fun e w => e.visitSecond visit w) = .done e w)
    (typed : a.ledger.typeExpr e = a.ledger.typeNode e) : Walks (depth + 1) a e := by
  have derived := a.ledger.typeExpr_derived e fresh
  have made : (a.ledger.typeExpr e).node.MadeOf [] := by
    constructor
    · rw [derived.originals, leaf]
      rfl
    · exact fun node member cast => .inr (derived.casts node member cast)
  refine walks_whole e [] [] fresh (fun entered passages => ?_) typed [] made tells_nil
  rw [alone, report_nil, List.append_nil]

section
variable {depth : Nat} {a : Analysis} {note : Note}

theorem binary_walks {op : BinaryOp} {left right : Expr}
    (fresh : (Expr.binary note op left right).Fresh) (first : Walks depth a left)
    (second : Walks depth (a.report (a.ledger.typeExpr left).diagnostics) right) :
    Walks (depth + 1) a (.binary note op left right) := by
  rcases first with ⟨early, walk, tells⟩
  rcases second with ⟨late, walks, follow⟩
  refine walks_whole (.binary note op (a.ledger.typeExpr left).node (a.ledger.typeExpr right).node)
    ((a.ledger.typeExpr left).diagnostics ++ (a.ledger.typeExpr right).diagnostics) (early ++
      late) fresh
    ?_ rfl _ (Typing.binary_madeOf ..) (by simpa using tells.append follow)
  intro entered passages
  simp only [Expr.visitFirst, walk, checkExpr, Visit.done, Option.map_none, Visit.map,
    Visit.andThen, Expr.visitSecond, walks, report_ledger, report_report, List.append_assoc]

theorem unary_walks {op : UnaryOp} {operand : Expr} (fresh : (Expr.unary note op operand).Fresh)
    (inner : Walks depth a operand) : Walks (depth + 1) a (.unary note op operand) := by
  rcases inner with ⟨new, walk, tells⟩
  refine walks_whole (.unary note op (a.ledger.typeExpr operand).node)
    (a.ledger.typeExpr operand).diagnostics new fresh ?_ rfl _ (Typing.unary_madeOf ..)
    (by simpa using tells)
  intro entered passages
  simp only [Expr.visitFirst, walk, checkExpr, Visit.done, Option.map_none, Visit.map,
    Visit.andThen, Expr.visitSecond]

theorem assign_walks {op : AssignOp} {target value : Expr}
    (fresh : (Expr.assign note op target value).Fresh) (first : Walks depth a value)
    (second : Walks depth (a.report (a.ledger.typeExpr value).diagnostics) target) :
    Walks (depth + 1) a (.assign note op target value) := by
  -- The value is typed before the target.
  rcases first with ⟨early, walk, tells⟩
  rcases second with ⟨late, walks, follow⟩
  refine walks_whole
    (.assign note op (a.ledger.typeExpr target).node (a.ledger.typeExpr value).node)
    ((a.ledger.typeExpr value).diagnostics ++ (a.ledger.typeExpr target).diagnostics) (early ++
      late) fresh
    ?_ rfl _ (Typing.assign_madeOf ..) (by simpa using tells.append follow)
  intro entered passages
  simp only [Expr.visitFirst, walk, checkExpr, Visit.done, Option.map_none, Visit.map,
    Visit.andThen, Expr.visitSecond, walks, report_ledger, report_report, List.append_assoc]

theorem call_walks {callee : Expr} {args : List Expr} (fresh : (Expr.call note callee args).Fresh)
    (first : ∀ arg ∈ args, ∀ a, Walks depth a arg)
    (second : Walks depth (a.report (a.ledger.typeArgs args).diagnostics) callee) :
    Walks (depth + 1) a (.call note callee args) := by
  -- The arguments are typed before the callee.
  have typed :
    ∀ arg ∈ args, ∀ a, Follows (typing.watched.walkExpr depth arg) a (checkExpr arg a)
      (checkExpr arg a).node.originals := first
  have passed := each_checkExpr args a
  rcases each_follows typed (congrArg Visit.stopped passed) with ⟨early, walk, tells⟩
  rcases second with ⟨late, walks, follow⟩
  rw [passed] at walk tells
  refine walks_whole (.call note (a.ledger.typeExpr callee).node (a.ledger.typeArgs args).node)
    ((a.ledger.typeArgs args).diagnostics ++ (a.ledger.typeExpr callee).diagnostics) (early ++
      late) fresh
    ?_ rfl _ (a.ledger.typeCall_madeOf ..) (by simpa [Visit.done] using tells.append follow)
  intro entered passages
  simp only [Expr.visitFirst, walk, checkExpr, Visit.done, Option.map_none, Visit.map,
    Visit.andThen, Expr.visitSecond, walks, report_ledger, report_report, List.append_assoc]

end

theorem walkExpr_walks (e : Expr) (fresh : e.Fresh) {depth : Nat} (enough : e.height ≤ depth)
    (a : Analysis) :
    Walks depth a e := by
  -- The induction is on the depth, which every operand has one less of.
  induction depth generalizing e a with
  | zero => cases e <;> cases enough
  | succ depth ih =>
      cases e with
      | bool | int | double | name => exact walks_leaf depth a fresh rfl (fun _ _ => rfl) rfl
      | binary note op left right =>
          rcases (Expr.fresh_binary _).mp fresh with ⟨leftFresh, rightFresh, _⟩
          rw [Expr.height] at enough
          exact binary_walks fresh (ih left leftFresh (by omega) a)
            (ih right rightFresh (by omega) _)
      | unary note op operand =>
          rcases (Expr.fresh_unary _).mp fresh with ⟨operandFresh, _⟩
          rw [Expr.height] at enough
          exact unary_walks fresh (ih operand operandFresh (by omega) a)
      | assign note op target value =>
          rcases (Expr.fresh_assign _).mp fresh with ⟨valueFresh, targetFresh, _⟩
          rw [Expr.height] at enough
          exact assign_walks fresh (ih value valueFresh (by omega) a)
            (ih target targetFresh (by omega) _)
      | call note callee args =>
          rcases (Expr.fresh_call _).mp fresh with ⟨argsFresh, calleeFresh, _⟩
          rw [Expr.height] at enough
          refine call_walks fresh (fun arg member a => ?_) (ih callee calleeFresh (by omega) _)
          have below := Expr.height_within arg member
          exact ih arg (argsFresh arg member) (by omega) a
      | cast note kind operand => exact absurd fresh (Expr.not_fresh_cast _)

end Analysis

def Stmt.height (s : Stmt) : Nat := s.root?.elim 0 Expr.height

/-- The nodes of a statement that are not casts, in visiting order. -/
def Stmt.originals (s : Stmt) : List Expr := s.root?.toList.flatMap Expr.originals

namespace Analysis

theorem checkDeclaration_originals (line : Nat) (decl : Declaration) (a : Analysis) :
    (Stmt.declare line (checkDeclaration line decl a).1).originals =
      (Stmt.declare line decl).originals := by
  unfold checkDeclaration
  split
  · rfl
  · split
    · rfl
    · rename_i init provided
      have same : (coerceInit line decl.ty init).node.originals = init.originals := by
        unfold coerceInit
        split
        · rfl
        · split
          · exact Expr.coerce_originals ..
          · rfl
      simp [Stmt.originals, Stmt.root?, provided, same]

theorem crossing_follows {s : Stmt} {depth : Nat} {a : Analysis}
    {step : Ledger → Except Fault Ledger} (entering : typing.enterStmt s a = crossing s a step)
    (bare : ∀ (visit : Expr → Watched Analysis →
      Visit (Watched Analysis) (Halt Fault) Expr) w,
      s.visitRoot visit w = .done s w)
    (leaving : ∀ a, typing.leaveStmt s a = .done s a) (empty : s.originals = []) :
    Follows (typing.watched.walkStmt depth s) a (crossing s a step)
      (crossing s a step).node.originals := by
  rw [crossing_node, empty]
  refine ⟨[], fun entered passages => ?_, tells_nil⟩
  have enter : typing.watched.enterStmt s ⟨a, entered, passages⟩ =
      (crossing s a step).mapState fun after => ⟨after, entered, passages⟩ := by
    rw [← entering]
    rfl
  rw [Editor.walkStmt, enter, List.append_nil]
  unfold crossing
  cases step a.ledger with
  | error fault => rfl
  | ok next =>
      simp only [Visit.done_mapState, Visit.done_mapStopped, Visit.done_andThen, bare]
      simp [Editor.watched, leaving, Visit.done, Watched.stay, Visit.mapState, Visit.mapStopped]

theorem walkStmt_follows (s : Stmt) (fresh : s.Fresh) {depth : Nat} (enough : s.height ≤ depth)
    (a : Analysis) :
    Follows (typing.watched.walkStmt depth s) a (checkStmt s a) (checkStmt s a).node.originals := by
  cases s with
  | expr line value =>
      rcases walkExpr_walks value fresh enough a with ⟨new, walk, tells⟩
      refine ⟨new, fun entered passages => ?_, ?_⟩
      · show ((Stmt.expr line value).visitRoot (typing.watched.walkExpr depth)
          ⟨a, entered, passages⟩).andThen _ = _
        rw [Stmt.visitRoot, walk]
        rfl
      · simpa [checkStmt, Stmt.originals, Stmt.root?, Visit.done] using tells
  | enterIf line condition =>
      rcases walkExpr_walks condition fresh enough a with ⟨new, walk, tells⟩
      refine ⟨new, fun entered passages => ?_, ?_⟩
      · show ((Stmt.enterIf line condition).visitRoot (typing.watched.walkExpr depth)
          ⟨a, entered, passages⟩).andThen _ = _
        rw [Stmt.visitRoot, walk]
        simp only [checkStmt, ← report_report]
        rfl
      · simpa [checkStmt, Stmt.originals, Stmt.root?, Visit.done] using tells
  | declare line decl =>
      rcases decl with ⟨name, ty, _ | init, id⟩
      · have kept : (checkStmt (.declare line ⟨name, ty, none, id⟩) a).node.originals = [] :=
          checkDeclaration_originals line ⟨name, ty, none, id⟩ a
        rw [kept]
        refine ⟨[], fun entered passages => ?_, tells_nil⟩
        rw [List.append_nil]
        rfl
      · rcases walkExpr_walks init (fresh.2 init rfl) enough a with ⟨new, walk, tells⟩
        have kept : (checkStmt (.declare line ⟨name, ty, some init, id⟩) a).node.originals =
            (a.ledger.typeExpr init).node.originals := by
          refine (checkDeclaration_originals line _ _).trans ?_
          simp [Stmt.originals, Stmt.root?]
        rw [kept]
        refine ⟨new, fun entered passages => ?_, tells⟩
        show ((Stmt.declare line ⟨name, ty, some init, id⟩).visitRoot
          (typing.watched.walkExpr depth) ⟨a, entered, passages⟩).andThen _ = _
        simp only [Stmt.visitRoot, walk]
        rfl
  | beginBlock line => exact crossing_follows rfl (fun _ _ => rfl) (fun _ => rfl) rfl
  | endBlock line => exact crossing_follows rfl (fun _ _ => rfl) (fun _ => rfl) rfl
  | leaveIf line => exact ⟨[], fun _ _ => by rw [List.append_nil]; rfl, tells_nil⟩

def heightOfAll : List Stmt → Nat
  | [] => 0
  | s :: rest => max s.height (heightOfAll rest)

theorem height_below {stmts : List Stmt} : ∀ s ∈ stmts, s.height ≤ heightOfAll stmts := by
  induction stmts with
  | nil => exact fun s absent => by cases absent
  | cons s rest ih =>
      rw [heightOfAll]
      refine List.forall_mem_cons.mpr ⟨Nat.le_max_left .., fun other member => ?_⟩
      exact Nat.le_trans (ih other member) (Nat.le_max_right ..)

theorem walkStmts_follows {stmts : List Stmt} (fresh : ∀ s ∈ stmts, s.Fresh) {a : Analysis}
    (ran : (Visit.each checkStmt stmts a).stopped = none) :
    Follows (typing.watched.walkStmts (heightOfAll stmts) stmts) a (Visit.each checkStmt stmts a)
      ((Visit.each checkStmt stmts a).node.flatMap Stmt.originals) :=
  each_follows (fun s member a => walkStmt_follows s (fresh s member) (height_below s member) a) ran

/-- Checking statements is walking them, also where it stops. -/
theorem walkStmts_checks {stmts : List Stmt} (fresh : ∀ s ∈ stmts, s.Fresh) (a : Analysis) :
    typing.walkStmts (heightOfAll stmts) stmts a =
      (Visit.each checkStmt stmts a).mapStopped Halt.failed := by
  apply Visit.each_mapStopped
  intro s member a
  rcases walkStmt_follows s (fresh s member) (height_below s member) a with ⟨new, walk, _⟩
  have seen :=
    Editor.walkStmt_projects (Editor.watched_projects typing) (heightOfAll stmts) s (.start a)
  rw [Watched.start, walk] at seen
  exact seen.symm

def passages (stmts : List Stmt) (a : Analysis) : List (Passage Analysis) :=
  (typing.watched.walkStmts (heightOfAll stmts) stmts (.start a)).state.passages

/-- A body is visited behind its parameters, unless its function was not registered. -/
def bodyPassages (f : Function) (a : Analysis) : List (Passage Analysis) :=
  match f.body, f.id, a.ledger.openBlock with
  | some body, some _, .ok ledger =>
      passages body (declareParams f.line f.params ⟨ledger, a.diagnostics⟩).2
  | _, _, _ => []

def itemPassages : Item → Analysis → List (Passage Analysis)
  | .function f, a => bodyPassages f a
  | .stmt s, a => passages [s] a

def itemsPassages : List Item → Analysis → List (Passage Analysis)
  | [], _ => []
  | item :: rest, a => itemPassages item a ++ itemsPassages rest (checkItem item a).state

end Analysis

/-- The expressions of the item that are visited, in visiting order. -/
def Item.visited : Item → List Expr
  | function f => if f.id.isSome then f.stmts.flatMap Stmt.originals else []
  | stmt s => s.originals

namespace Analysis

theorem passages_tell {stmts : List Stmt} (fresh : ∀ s ∈ stmts, s.Fresh) {a : Analysis}
    (ran : (Visit.each checkStmt stmts a).stopped = none) :
    Tells (passages stmts a) ((Visit.each checkStmt stmts a).node.flatMap Stmt.originals) := by
  rcases walkStmts_follows fresh ran with ⟨new, walk, tells⟩
  rw [passages, Watched.start, walk]
  exact tells

theorem bodyPassages_tell (f : Function) (fresh : f.FreshInside) {a : Analysis}
    (ran : (checkFunction f a).stopped = none) :
    Tells (bodyPassages f a) (Item.function (checkFunction f a).node).visited := by
  rcases f with ⟨name, returns, params, body, line, id⟩
  match body, id with
  | none, none | none, some _ | some _, none => exact tells_nil
  | some body, some id =>
      rcases checkBody_ran ran with ⟨ledger, next, opens, stopped, closes, visit⟩
      have same : checkFunction ⟨name, returns, params, some body, line, some id⟩ a =
          checkBody ⟨name, returns, params, some body, line, some id⟩ body a := rfl
      rw [same, visit, bodyPassages, opens]
      exact passages_tell (fresh.2 body rfl) stopped

theorem itemPassages_tell (item : Item) (fresh : Unchecked item) {a : Analysis}
    (ran : (checkItem item a).stopped = none) :
    Tells (itemPassages item a) (checkItem item a).node.visited := by
  cases item with
  | function f => exact bodyPassages_tell f fresh ran
  | stmt s =>
      have single : Visit.each checkStmt [s] a = (checkStmt s a).map fun node => [node] := by
        rw [Visit.each_cons]
        rcases checkStmt s a with ⟨node, next, _ | fault⟩ <;> rfl
      have stmts : ∀ other ∈ [s], other.Fresh := List.forall_mem_singleton.mpr fresh
      have tells := passages_tell stmts (by rw [single]; exact ran)
      simp only [single, Visit.map, List.flatMap_singleton] at tells
      exact tells

theorem itemsPassages_tell (items : List Item) (fresh : ∀ item ∈ items, Unchecked item)
    {a : Analysis} (ran : (Visit.each checkItem items a).stopped = none) :
    Tells (itemsPassages items a) ((Visit.each checkItem items a).node.flatMap Item.visited) := by
  induction items generalizing a with
  | nil => exact tells_nil
  | cons item rest ih =>
      rcases Visit.each_ran ran with ⟨here, others, visit⟩
      rcases List.forall_mem_cons.mp fresh with ⟨first, inside⟩
      rw [visit]
      exact (itemPassages_tell item first here).append (ih inside others)

end Analysis

namespace Program

def passages (p : Program) (ledger : Ledger) : List (Passage Analysis) :=
  let registered := Visit.each Analysis.registerItem p.items ⟨ledger, #[]⟩
  Analysis.itemsPassages registered.node registered.state

def visited (p : Program) : List Expr := p.items.flatMap Item.visited

/-- When an analysis has reached its end, an expression it visited has no type exactly if something
was reported between entering and leaving it. So if nothing was reported at all, then nothing was
left empty. -/
theorem analyze_tells (p : Program) (fresh : p.Fresh) (limit : Nat)
    (ended : (p.analyze (.empty limit)).stopped = none) :
    (p.passages (.empty limit)).map Passage.node = (p.analyze (.empty limit)).node.visited ∧
      (∀ passage ∈ p.passages (.empty limit),
        ∃ found, passage.after = passage.before.report found ∧
          (passage.node.ty = none ↔ found ≠ [])) ∧
      ((p.analyze (.empty limit)).state.diagnostics = #[] →
        (p.analyze (.empty limit)).node.Filled) := by
  have empty : (Analysis.mk (.empty limit) #[]).ledger.Reads [] .start := reads_empty limit
  obtain ⟨_, nodes, _⟩ := Analysis.register_numbers p.items fresh empty rfl
  have unchecked := Analysis.numbered_unchecked [] p.items fresh
  obtain ⟨checked, _, visit⟩ := analyze_ran ended
  have tells :=
    Analysis.itemsPassages_tell _ (fun item member => unchecked item (nodes ▸ member)) checked
  refine ⟨?_, tells.told, fun clean => ?_⟩
  · rw [visit]
    exact tells.nodes
  · exact (analyze_sound fresh ended clean).filled

def summing (right : Expr) : Program :=
  ⟨[.function ⟨"f", .int, [⟨"a", .int, none⟩],
      some [.expr 2 (.binary ⟨2, none⟩ (.arith .add) (.name ⟨2, none⟩ "a" none) right)], 1, none⟩,
    .stmt (.expr 3 (.binary ⟨3, none⟩ (.compare .less) (.int ⟨3, none⟩ 1) (.int ⟨3, none⟩ 2)))]⟩

/-- Only the sum is left without a type when its operands do not fit, and nothing is when they
do. -/
theorem summing_tells :
    (summing (.bool ⟨2, none⟩ true)).Fresh ∧
      ((summing (.bool ⟨2, none⟩ true)).analyze (.empty 1)).stopped = none ∧
      ((summing (.bool ⟨2, none⟩ true)).analyze (.empty 1)).node.visited.map Expr.ty =
        [some .int, some .boolean, none, some .int, some .int, some .boolean] ∧
      (∀ passage ∈ (summing (.bool ⟨2, none⟩ true)).passages (.empty 1),
        ∃ found, passage.after = passage.before.report found ∧
          (passage.node.ty = none ↔ found ≠ [])) ∧
      ((summing (.int ⟨2, none⟩ 1)).analyze (.empty 1)).node.Filled := by
  have fresh : (summing (.bool ⟨2, none⟩ true)).Fresh := by decide
  have ended : ((summing (.bool ⟨2, none⟩ true)).analyze (.empty 1)).stopped = none := rfl
  rcases analyze_tells _ fresh 1 ended with ⟨_, told, _⟩
  rcases analyze_tells (summing (.int ⟨2, none⟩ 1)) (by decide) 1 rfl with ⟨_, _, filled⟩
  exact ⟨fresh, ended, rfl, told, filled rfl⟩

end Program
end StackCompiler
