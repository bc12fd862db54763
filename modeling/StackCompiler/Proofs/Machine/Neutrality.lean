import StackCompiler.Proofs.Lowering.Statements
import StackCompiler.Proofs.Machine.Heights

/-!
Statements are neutral.

The mode is one for a whole body, and what switches it back to loading behind an assignment is up to
what encloses the assignment. Still, whatever the tree carries, an expression that somebody waits
for leaves one value and finds the generator as it was before, and a statement leaves neither a
value nor anything open.
-/
namespace StackCompiler

open Lowering

/-- How many values an expression leaves on the stack: none, if it is an assignment that nobody
waits for. -/
def Expr.results (e : Expr) (awaited : Bool) : Nat := (!e.isAssign || awaited).toNat

namespace Lowering
variable {e : Expr} {s t u : Lowering} {low high : Nat}

theorem walk_mode (loading : s.mode = .load) (ran : generator.walkExpr e s = .ok () t) :
    t.mode = if e.isAssign && !s.awaited then .store else .load := by
  rcases s with ⟨emitter, statics, mode, assigns, calls, values⟩
  cases loading
  have leaves := walk_expr e emitter statics assigns calls values
  rw [Meets, ran] at leaves
  rw [leaves.1]
  rfl

theorem walk_counts (ran : generator.walkExpr e s = .ok () t) : t.count = s.count := by
  rw [Visitor.walkExpr_calls] at ran
  exact e.calls_tally.restores s t ran

theorem between_counts (passed : generator.betweenExpr e s = .ok () t) : t.count = s.count :=
  betweenExpr_still e s () t passed

theorem enterExpr_loads (loading : s.mode = .load) (entered : enterExpr e s = .ok () t) :
    t.mode = .load := by
  rcases s with ⟨emitter, statics, mode, assigns, calls, values⟩
  cases loading
  cases e with
  | assign note op target value =>
      have opened := enter_assign note op target value emitter statics assigns calls values
      rw [Meets, entered] at opened
      rw [opened]
  | _ =>
      rw [enter_load] at entered
      cases entered
      rfl

theorem enterExpr_awaited {c : Counter} (counted : e.counter? = some c)
    (entered : enterExpr e s = .ok () t) :
    t.awaited = true := by
  have raised := enterExpr_raises e s () t entered
  rw [counted] at raised
  exact awaited_raised raised

/-- Walked in the mode of loading, an expression leaves its results, whatever is open. -/
def WalksShifting (e : Expr) : Prop :=
  ∀ s t low, s.mode = .load → generator.walkExpr e s = .ok () t →
    Shifts e.calls s t low (low + e.results s.awaited)

structure Pushes (calls : List Call) (s t : Lowering) (low high : Nat) : Prop where
  loads : t.mode = .load
  counts : t.count = s.count
  shifts : Shifts calls s t low high

/-- Where somebody waits, an expression leaves one value, also if it is an assignment. -/
theorem value_pushes (walks : WalksShifting e) (loading : s.mode = .load)
    (awaited : s.awaited = true) (ran : generator.walkExpr e s = .ok () t) :
    Pushes e.calls s t low (low + 1) where
  loads := by rw [walk_mode loading ran, awaited, Bool.not_true, Bool.and_false]; rfl
  counts := walk_counts ran
  shifts := by
    have shifts := walks s t low loading ran
    rw [Expr.results, awaited, Bool.or_true] at shifts
    exact shifts

theorem args_pushes (args : List Expr) (walks : ∀ arg ∈ args, WalksShifting arg)
    (loading : s.mode = .load) (awaited : s.awaited = true)
    (ran : generator.walkArgs args s = .ok () t) :
    Pushes (args.flatMap Expr.calls) s t low (low + args.length) := by
  induction args generalizing s low with
  | nil =>
      cases ran
      exact ⟨loading, rfl, Shifts.nothing⟩
  | cons arg rest ih =>
      rcases List.forall_mem_cons.mp walks with ⟨own, others⟩
      rw [Visitor.walkArgs_cons] at ran
      rcases bind_ok ran with ⟨_, u, walked, later⟩
      have first : Pushes arg.calls s u low (low + 1) := value_pushes own loading awaited walked
      have second : Pushes (rest.flatMap Expr.calls) u t (low + 1) (low + 1 + rest.length) :=
        ih others first.loads ((awaited_congr first.counts).trans awaited) later
      refine ⟨second.loads, second.counts.trans first.counts, ?_⟩
      rw [List.flatMap_cons, List.length_cons, Nat.add_comm rest.length, ← Nat.add_assoc]
      exact first.shifts.append second.shifts

theorem enter_shifts (low : Nat) (entered : generator.enterExpr e s = .ok () t) :
    Shifts [.enterExpr e] s t low (low + e.preloads) :=
  Shifts.single entered (enterExpr_lifting e s () t entered)

theorem between_shifts (low : Nat) (passed : generator.betweenExpr e s = .ok () t) :
    Shifts [.betweenExpr e] s t (low + e.preloads + 1) (low + 1) :=
  Shifts.single passed (betweenExpr_lifting e s () t passed)

/-- A node that is neither a name nor an assignment makes its value of what its parts leave. -/
theorem node_shifts {calls : List Call} {v : Lowering} (unnamed : e.isName = false)
    (computed : e.isAssign = false)
    (entered : enterExpr e s = .ok () u) (inner : Shifts calls u v low (low + e.consumes))
    (left : leaveExpr e v = .ok () t) :
    Shifts (.enterExpr e :: (calls ++ [.leaveExpr e])) s t low (low + 1) := by
  have opened : Shifts [.enterExpr e] s u low (low + e.preloads) := enter_shifts low entered
  have nothing : e.preloads = 0 := by
    cases e with
    | assign => cases computed
    | _ => rfl
  rw [nothing] at opened
  exact opened.append
    (inner.append (Shifts.single left (leaveExpr_lifting unnamed computed v () t left)))

theorem literal_shifts (literal : e.isLiteral = true) : WalksShifting e := by
  intro s t low _ ran
  cases e with
  | bool | int | double =>
      rw [Visitor.walkExpr_calls, Expr.calls] at ran
      rcases bind_ok ran with ⟨_, u, entered, left⟩
      rcases bind_ok left with ⟨_, _, left, ended⟩
      cases ended
      exact node_shifts rfl rfl entered Shifts.nothing left
  | _ => cases literal

theorem name_shifts (note : Note) (name : String) (binding : Option Binding) :
    WalksShifting (.name note name binding) := by
  intro s t low loading ran
  rw [Visitor.walkExpr_name] at ran
  rcases bind_ok ran with ⟨_, u, entered, left⟩
  exact (enter_shifts low entered).append
    (Shifts.single left (leaveExpr_loads (enterExpr_loads loading entered) left))

theorem binary_shifts (note : Note) (op : BinaryOp) {left right : Expr} (first : WalksShifting left)
    (second : WalksShifting right) : WalksShifting (.binary note op left right) := by
  intro s t low loading ran
  rw [Visitor.walkExpr_binary] at ran
  rcases bind_ok ran with ⟨_, u, entered, ran⟩
  rcases bind_ok ran with ⟨_, v, walked, ran⟩
  rcases bind_ok ran with ⟨_, w, passed, ran⟩
  rcases bind_ok ran with ⟨_, x, visited, leaving⟩
  -- What is open stays open until the node is left, so both operands are waited for.
  have awaited : u.awaited = true := enterExpr_awaited rfl entered
  have early : Pushes left.calls u v low (low + 1) :=
    value_pushes first (enterExpr_loads loading entered) awaited walked
  have between : Shifts [.betweenExpr (.binary note op left right)] v w (low + 1) (low + 1) :=
    between_shifts low passed
  cases passed
  have late : Pushes right.calls v x (low + 1) (low + 2) :=
    value_pushes second early.loads ((awaited_congr early.counts).trans awaited) visited
  exact node_shifts rfl rfl entered (early.shifts.append (between.append late.shifts)) leaving

theorem unary_shifts (note : Note) (op : UnaryOp) {operand : Expr} (inner : WalksShifting operand) :
    WalksShifting (.unary note op operand) := by
  intro s t low loading ran
  rw [Visitor.walkExpr_unary] at ran
  rcases bind_ok ran with ⟨_, u, entered, ran⟩
  rcases bind_ok ran with ⟨_, v, walked, leaving⟩
  have value : Pushes operand.calls u v low (low + 1) :=
    value_pushes inner (enterExpr_loads loading entered) (enterExpr_awaited rfl entered) walked
  exact node_shifts rfl rfl entered value.shifts leaving

theorem cast_shifts (note : Note) (kind : Cast) {operand : Expr} (inner : WalksShifting operand) :
    WalksShifting (.cast note kind operand) := by
  intro s t low loading ran
  rw [Visitor.walkExpr_cast] at ran
  rcases bind_ok ran with ⟨_, u, entered, ran⟩
  rcases bind_ok ran with ⟨_, v, walked, leaving⟩
  have value : Pushes operand.calls u v low (low + 1) :=
    value_pushes inner (enterExpr_loads loading entered) (enterExpr_awaited rfl entered) walked
  exact node_shifts rfl rfl entered value.shifts leaving

theorem call_shifts (note : Note) {callee : Expr} {args : List Expr} (target : WalksShifting callee)
    (inner : ∀ arg ∈ args, WalksShifting arg) : WalksShifting (.call note callee args) := by
  intro s t low loading ran
  rw [Visitor.walkExpr_call] at ran
  rcases bind_ok ran with ⟨_, u, entered, ran⟩
  rcases bind_ok ran with ⟨_, v, walked, ran⟩
  rcases bind_ok ran with ⟨_, w, visited, leaving⟩
  have awaited : u.awaited = true := enterExpr_awaited rfl entered
  have passed : Pushes (args.flatMap Expr.calls) u v low (low + args.length) :=
    args_pushes args inner (enterExpr_loads loading entered) awaited walked
  have reference : Pushes callee.calls v w (low + args.length) (low + args.length + 1) :=
    value_pushes target passed.loads ((awaited_congr passed.counts).trans awaited) visited
  have both := passed.shifts.append reference.shifts
  rw [← Expr.callsOfArgs_eq] at both
  exact node_shifts rfl rfl entered both leaving

/-- The target of an assignment takes the value, and leaves it again if somebody waits for the
whole. -/
theorem target_shifts {target : Expr} (storing : s.mode = .store)
    (ran : generator.walkExpr target s = .ok () t) :
    Shifts target.calls s t (low + 1) (low + s.keepsValue.toNat) := by
  cases target with
  | name note name binding =>
      rw [Visitor.walkExpr_name] at ran
      rcases bind_ok ran with ⟨_, u, entered, leaving⟩
      have counts : u.count = s.count := enterExpr_raises _ s () u entered
      have still : u.mode = .store := by
        rcases s with ⟨emitter, statics, mode, assigns, calls, values⟩
        cases storing
        cases entered
        rfl
      rw [← keepsValue_congr counts]
      exact (enter_shifts _ entered).append (Shifts.single leaving (leaveExpr_stores still leaving))
  | _ => cases stores_to_name storing ran

theorem assign_shifts (note : Note) (op : AssignOp) (target : Expr) {value : Expr}
    (inner : WalksShifting value) :
    WalksShifting (.assign note op target value) := by
  -- The value that is assigned is on the stack when the target is come to. The target takes it,
  -- and leaves it again if somebody waits for the whole.
  intro s t low loading ran
  rw [Visitor.walkExpr_assign] at ran
  rcases bind_ok ran with ⟨_, u, entered, ran⟩
  rcases bind_ok ran with ⟨_, v, walked, ran⟩
  rcases bind_ok ran with ⟨_, w, passed, ran⟩
  rcases bind_ok ran with ⟨_, x, visited, leaving⟩
  have assigned : Pushes value.calls u v (low + (Expr.assign note op target value).preloads) _ :=
    value_pushes inner (enterExpr_loads loading entered) (enterExpr_awaited rfl entered) walked
  -- Since the assignment itself is open, the target sees whether anything else is.
  have raised : w.count = raise (some .assigns) s.count := calc
    w.count = v.count := between_counts passed
    _ = u.count := assigned.counts
    _ = raise (some .assigns) s.count := enterExpr_raises _ s () u entered
  have stored : Shifts target.calls w x (low + 1) (low + w.keepsValue.toNat) :=
    target_shifts (between_stores note op target value passed) visited
  rw [keepsValue_raised raised] at stored
  have closed : Shifts [.leaveExpr (.assign note op target value)] x t (low + s.awaited.toNat) _ :=
    Shifts.single leaving (leaveAssign_lifting note op target value x () t leaving)
  exact (enter_shifts low entered).append
    ((assigned.shifts.append ((between_shifts low passed).append stored)).append closed)

theorem walks_shifting (e : Expr) : WalksShifting e := by
  induction e with
  | bool | int | double => exact literal_shifts rfl
  | name note name binding => exact name_shifts note name binding
  | binary note op left right first second => exact binary_shifts note op first second
  | unary note op operand inner => exact unary_shifts note op inner
  | assign note op target value _ inner => exact assign_shifts note op target inner
  | call note callee args target inner => exact call_shifts note target inner
  | cast note kind operand inner => exact cast_shifts note kind inner

/-! Places. -/

/-- The generator has come to an expression whose value somebody waits for: an operand, an assigned
value, an argument, what is called, an initializer or a condition. -/
inductive Awaits : Expr → Lowering → Prop
  | left {note : Note} {op : BinaryOp} {left right : Expr} {s t : Lowering}
      (ran : generator.enterExpr (.binary note op left right) s = .ok () t) : Awaits left t
  | right {note : Note} {op : BinaryOp} {left right : Expr} {s t : Lowering}
      (ran : (do
        generator.enterExpr (.binary note op left right)
        generator.walkExpr left
        generator.betweenExpr (.binary note op left right)) s = .ok () t) : Awaits right t
  | operand {note : Note} {op : UnaryOp} {operand : Expr} {s t : Lowering}
      (ran : generator.enterExpr (.unary note op operand) s = .ok () t) : Awaits operand t
  | converted {note : Note} {kind : Cast} {operand : Expr} {s t : Lowering}
      (ran : generator.enterExpr (.cast note kind operand) s = .ok () t) : Awaits operand t
  | assigned {note : Note} {op : AssignOp} {target value : Expr} {s t : Lowering}
      (ran : generator.enterExpr (.assign note op target value) s = .ok () t) : Awaits value t
  | argument {note : Note} {callee arg : Expr} {before behind : List Expr} {s t : Lowering}
      (ran : (do
        generator.enterExpr (.call note callee (before ++ arg :: behind))
        generator.walkArgs before) s = .ok () t) : Awaits arg t
  | callee {note : Note} {callee : Expr} {args : List Expr} {s t : Lowering}
      (ran : (do
        generator.enterExpr (.call note callee args)
        generator.walkArgs args) s = .ok () t) : Awaits callee t
  | initializer {line : Nat} {decl : Declaration} {init : Expr} {s t : Lowering}
    (initial : decl.init = some init)
      (ran : generator.enterStmt (.declare line decl) s = .ok () t) : Awaits init t
  | condition {line : Nat} {condition : Expr} {s t : Lowering}
      (ran : generator.enterStmt (.enterIf line condition) s = .ok () t) : Awaits condition t

theorem walkArgs_counts {args : List Expr} (ran : generator.walkArgs args s = .ok () t) :
    t.count = s.count := by
  induction args generalizing s with
  | nil =>
      cases ran
      rfl
  | cons arg rest ih =>
      rw [Visitor.walkArgs_cons] at ran
      rcases bind_ok ran with ⟨_, u, walked, later⟩
      exact (ih later).trans (walk_counts walked)

theorem Awaits.awaited (awaits : Awaits e s) : s.awaited = true := by
  cases awaits with
  | left ran => exact enterExpr_awaited rfl ran
  | operand ran => exact enterExpr_awaited rfl ran
  | converted ran => exact enterExpr_awaited rfl ran
  | assigned ran => exact enterExpr_awaited rfl ran
  | right ran =>
      rcases bind_ok ran with ⟨_, u, entered, ran⟩
      rcases bind_ok ran with ⟨_, v, walked, passed⟩
      rw [awaited_congr (between_counts passed), awaited_congr (walk_counts walked)]
      exact enterExpr_awaited rfl entered
  | argument ran =>
      rcases bind_ok ran with ⟨_, u, entered, walked⟩
      rw [awaited_congr (walkArgs_counts walked)]
      exact enterExpr_awaited rfl entered
  | callee ran =>
      rcases bind_ok ran with ⟨_, u, entered, walked⟩
      rw [awaited_congr (walkArgs_counts walked)]
      exact enterExpr_awaited rfl entered
  | initializer _ ran => exact awaited_raised (enterStmt_raises _ _ () s ran)
  | condition ran => exact awaited_raised (enterStmt_raises _ _ () s ran)

/-! Statements. -/

/-- Nothing is open, and names are loaded. -/
structure Idle (s : Lowering) : Prop where
  loads : s.mode = .load
  closed : ∀ c, s.count c = 0

theorem Idle.unawaited (idle : s.Idle) : s.awaited = false := by
  show waiting (s.count .assigns) (s.count .calls) (s.count .values) = false
  simp [idle.closed, waiting]

theorem idle_walked {stmt : Stmt} (idle : s.Idle) (ran : generator.walkStmt stmt s = .ok () t) :
    t.Idle := by
  rcases s with ⟨emitter, statics, mode, assigns, calls, values⟩
  cases idle.loads
  cases idle.closed .assigns
  cases idle.closed .calls
  cases idle.closed .values
  have walked := walk_stmt stmt emitter statics
  rw [WalksStmt, Meets, ran] at walked
  rw [walked.1]
  exact ⟨rfl, fun c => by cases c <;> rfl⟩

theorem enterStmt_loads {stmt : Stmt} (entered : generator.enterStmt stmt s = .ok () t) :
    t.mode = s.mode := by
  rcases s with ⟨emitter, statics, mode, assigns, calls, values⟩
  cases stmt <;> (cases entered; rfl)

theorem enterStmt_shifts {stmt : Stmt} (entered : generator.enterStmt stmt s = .ok () t) :
    Shifts [.enterStmt stmt] s t low low :=
  Shifts.single entered (enterStmt_lifting stmt s () t entered)

theorem exprStmt_shifts {line : Nat} {value : Expr} (idle : s.Idle)
    (ran : generator.walkStmt (.expr line value) s = .ok () t) :
    Shifts (Stmt.expr line value).calls s t 0 0 := by
  rcases bind_ok ran with ⟨_, u, entered, ran⟩
  rcases bind_ok ran with ⟨_, v, walked, leaving⟩
  have loading : u.mode = .load := (enterStmt_loads entered).trans idle.loads
  have unawaited : u.awaited = false := by
    rw [awaited_congr (enterStmt_raises _ s () u entered)]
    exact idle.unawaited
  have own : Shifts value.calls u v 0 (0 + value.results false) :=
    unawaited ▸ walks_shifting value u v 0 loading walked
  -- The mode behind the expression tells whether it has left a value.
  have left : value.results false = (decide (v.mode = .load)).toNat := by
    rw [walk_mode loading walked, unawaited, Expr.results]
    cases value.isAssign <;> rfl
  rw [left] at own
  have dropped :
      Shifts [.leaveStmt (.expr line value)] v t (0 + (decide (v.mode = .load)).toNat) 0 :=
    Shifts.single leaving (leaveValue_lifts leaving)
  rw [Stmt.calls, Stmt.root?, Option.toList_some, List.flatMap_singleton]
  exact (enterStmt_shifts entered).append (own.append dropped)

theorem stmt_shifts {stmt : Stmt} (idle : s.Idle) (ran : generator.walkStmt stmt s = .ok () t) :
    Shifts stmt.calls s t 0 0 := by
  by_cases whole : (Call.leaveStmt stmt).resets = true
  · match stmt, whole with
    | .expr line value, _ => exact exprStmt_shifts idle ran
  have lasting : (Call.leaveStmt stmt).resets = false := eq_false_of_ne_true whole
  unfold Visitor.walkStmt at ran
  rcases bind_ok ran with ⟨_, u, entered, ran⟩
  have loading : u.mode = .load := (enterStmt_loads entered).trans idle.loads
  have taken (v : Lowering) (leaving : generator.leaveStmt stmt v = .ok () t) :
      Shifts [.leaveStmt stmt] v t (0 + stmt.root?.isSome.toNat) 0 :=
    Shifts.single leaving (leaveStmt_lifting lasting v () t leaving)
  refine (enterStmt_shifts entered).append ?_
  cases held : stmt.root? with
  | none =>
      rw [held] at ran taken
      rcases bind_ok ran with ⟨_, v, same, leaving⟩
      cases same
      exact taken u leaving
  | some root =>
      rw [held] at ran taken
      rcases bind_ok ran with ⟨_, v, walked, leaving⟩
      have counted : stmt.counter? = some .values := by
        cases stmt with
        | expr => exact absurd rfl whole
        | declare | enterIf => rfl
        | beginBlock | endBlock | leaveIf => cases held
      have awaited : u.awaited = true :=
        awaited_raised (counted ▸ enterStmt_raises stmt s () u entered)
      have value : Pushes root.calls u v 0 (0 + 1) :=
        value_pushes (walks_shifting root) loading awaited walked
      rw [Option.toList_some, List.flatMap_singleton]
      exact value.shifts.append (taken v leaving)

/-- No counter is lowered below zero. A statement that is walked from idleness ends there, and its
code leaves the stack as high as it was without taking anything from below. An expression that
somebody waits for leaves one value, and the mode and the counters as they were. The annotations of
the tree do not matter. -/
theorem generator_neutral :
    (∀ stmts start, ∀ m ∈ generator.moments stmts start, m.Covered) ∧
    (∀ stmt start final, start.Idle → generator.walkStmt stmt start = .ok () final →
      final.Idle ∧ Shifts stmt.calls start final 0 0) ∧
    ∀ e start final, Awaits e start → start.mode = .load →
    generator.walkExpr e start = .ok () final →
      final.mode = .load ∧ final.count = start.count ∧ Shifts e.calls start final 0 1 := by
  refine ⟨moments_covered, fun stmt start final idle ran =>
    ⟨idle_walked idle ran, stmt_shifts idle ran⟩, ?_⟩
  intro e start final awaits loading ran
  have value : Pushes e.calls start final 0 1 :=
    value_pushes (walks_shifting e) loading awaits.awaited ran
  exact ⟨value.loads, value.counts, value.shifts⟩

def summing : Expr :=
  .assign ⟨2, none⟩ (.compound .add) (.name ⟨2, some .int⟩ "x" (some (.variable ⟨0⟩)))
    (.int ⟨2, some .int⟩ 3)

def calling : Expr :=
  .call ⟨1, none⟩ (.name ⟨1, none⟩ "f" (some (.function ⟨0⟩))) [.int ⟨1, none⟩ 1, summing]

/-- An assignment that nobody waits for. Its value is a call with an assignment among the arguments,
and neither of the assignments has a type. -/
def storing : Stmt :=
  .expr 1 (.assign ⟨1, none⟩ .plain (.name ⟨1, some .double⟩ "y" (some (.variable ⟨1⟩))) calling)

theorem storing_neutral :
    ∃ start final before after, start.Idle ∧ generator.walkStmt storing start = .ok () final ∧
      final.Idle ∧ Shifts storing.calls start final 0 0 ∧
      Awaits summing before ∧ before.mode = .load ∧
      generator.walkExpr summing before = .ok () after ∧
      after.mode = .load ∧ after.count = before.count ∧
      Shifts summing.calls before after 0 1 := by
  let fresh : Lowering := start .default ⟨.empty, .empty 1, #[]⟩
  have idle : fresh.Idle := ⟨rfl, fun c => by cases c <;> rfl⟩
  have whole : ∃ final, generator.walkStmt storing fresh = .ok () final := ⟨_, rfl⟩
  have part : ∃ before, (do
      generator.enterExpr calling
      generator.walkArgs [.int ⟨1, none⟩ 1]) fresh = .ok () before ∧
      before.mode = .load ∧ ∃ after, generator.walkExpr summing before = .ok () after :=
        ⟨_, rfl, rfl, _, rfl⟩
  rcases whole with ⟨final, ran⟩
  rcases part with ⟨before, opened, loading, after, walked⟩
  have awaits : Awaits summing before :=
    @Awaits.argument _ _ _ [.int ⟨1, none⟩ 1] [] fresh before opened
  rcases generator_neutral with ⟨_, statements, values⟩
  rcases statements storing fresh final idle ran with ⟨ended, neutral⟩
  exact ⟨fresh, final, before, after, idle, ran, ended, neutral, awaits, loading, walked,
    values summing before after awaits loading walked⟩

end Lowering
end StackCompiler
