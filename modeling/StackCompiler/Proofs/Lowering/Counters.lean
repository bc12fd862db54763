import Mathlib.Logic.Function.Basic
import StackCompiler.Proofs.Lowering.Literals
import StackCompiler.Proofs.Walk.Calls

/-!
The counters of what is open while code is generated.

Entering a node raises at most one counter and leaving it lowers the same one. Nothing in between
changes a counter for good, whatever the mode is and whatever the tree carries, so a counter that is
lowered is not zero (`moments_covered`), also in a walk that fails later on.
-/
namespace StackCompiler

inductive Counter
  | assigns
  | calls
  | values
deriving DecidableEq, Repr

def Lowering.count (s : Lowering) : Counter → Nat
  | .assigns => s.assigns
  | .calls => s.calls
  | .values => s.values

def Expr.counter? : Expr → Option Counter
  | binary .. | unary .. | cast .. => some .values
  | assign .. => some .assigns
  | call .. => some .calls
  | bool .. | int .. | double .. | name .. => none

def Stmt.counter? : Stmt → Option Counter
  | declare .. | enterIf .. => some .values
  | expr .. | beginBlock _ | endBlock _ | leaveIf _ => none

def Call.lowers : Call → Option Counter
  | leaveExpr e => e.counter?
  | leaveStmt s => s.counter?
  | enterExpr _ | betweenExpr _ | enterStmt _ => none

def Call.raises : Call → Option Counter
  | enterExpr e => e.counter?
  | enterStmt s => s.counter?
  | betweenExpr _ | leaveExpr _ | leaveStmt _ => none

/-- Whether a call may put a counter back to zero: behind an expression that is a whole statement
nothing is open. -/
def Call.resets : Call → Bool
  | leaveStmt (.expr ..) => true
  | _ => false

/-- A counter that the call takes one from is not zero. -/
def Moment.Covered (m : Moment Lowering) : Prop := ∀ c ∈ m.call.lowers, 0 < m.before.count c

namespace Lowering

abbrev Counts := Counter → Nat

def raise : Option Counter → Counts → Counts
  | none, counts => counts
  | some c, counts => Function.update counts c (counts c + 1)

def lower : Option Counter → Counts → Counts
  | none, counts => counts
  | some c, counts => Function.update counts c (counts c - 1)

theorem lower_raise (c : Option Counter) (counts : Counts) : lower c (raise c counts) = counts := by
  cases c with
  | none => rfl
  | some c => simp [lower, raise]

/-! Steps. -/

section
variable {α β : Type}

def Changes (step : Lower α) (change : Counts → Counts) : Prop :=
  ∀ s result t, step s = .ok result t → t.count = change s.count

abbrev Still (step : Lower α) : Prop := Changes step id

theorem still_pure (answer : α) : Still (pure answer) := by
  intro s result t ran
  cases ran
  rfl

theorem changes_throw (fault : Fault) (change : Counts → Counts) :
    Changes (throw fault : Lower α) change := by
  intro s result t ran
  cases ran

theorem changes_refuse (fault : Fault) (next : α → Lower β) (change : Counts → Counts) :
    Changes (throw fault >>= next) change := by
  intro s result t ran
  cases ran

theorem changes_bind {step : Lower α} {next : α → Lower β} {change other : Counts → Counts}
    (first : Changes step change) (rest : ∀ answer, Changes (next answer) other) :
    Changes (step >>= next) (other ∘ change) := by
  intro s result t ran
  rcases bind_ok ran with ⟨middle, u, stepped, later⟩
  rw [rest middle u result t later, first s middle u stepped, Function.comp_apply]

theorem changes_rest {step : Lower α} {next : α → Lower β} {change : Counts → Counts}
    (first : Still step) (rest : ∀ answer, Changes (next answer) change) :
    Changes (step >>= next) change := by
  rw [← Function.comp_id change]
  exact changes_bind first rest

theorem changes_first {step : Lower α} {next : α → Lower β} {change : Counts → Counts}
    (first : Changes step change) (rest : ∀ answer, Still (next answer)) :
    Changes (step >>= next) change := by
  rw [← Function.id_comp change]
  exact changes_bind first rest

theorem changes_if {p : Prop} [Decidable p] {first second : Lower α} {change : Counts → Counts}
    (yes : Changes first change) (no : Changes second change) :
    Changes (if p then first else second) change := by
  split
  · exact yes
  · exact no

theorem still_emitting (step : Emit α) : Still (emitting step) := by
  rintro ⟨emitter, statics, mode, assigns, calls, values⟩ result t ran
  unfold emitting at ran
  simp only at ran
  split at ran
  · cases ran
    rfl
  · cases ran

theorem still_demand (answer : Except Fault α) : Still (demand answer) := by
  cases answer with
  | ok found => exact still_pure found
  | error fault => exact changes_throw fault id

theorem still_get : Still (get : Lower Lowering) := by
  intro s result t ran
  cases ran
  rfl

theorem still_setMode (mode : Mode) : Still (setMode mode) := by
  intro s result t ran
  cases ran
  rfl

theorem changes_modify {change : Lowering → Lowering} {counts : Counts → Counts}
    (agree : ∀ s c, (change s).count c = counts s.count c) : Changes (modify change) counts := by
  intro s result t ran
  cases ran
  exact funext (agree s)

theorem openValue_raises : Changes openValue (raise (some .values)) :=
  changes_modify fun s c => by cases c <;> rfl

theorem openAssign_raises : Changes openAssign (raise (some .assigns)) :=
  changes_modify fun s c => by cases c <;> rfl

theorem openCall_raises : Changes openCall (raise (some .calls)) :=
  changes_modify fun s c => by cases c <;> rfl

theorem closeValue_lowers : Changes closeValue (lower (some .values)) :=
  changes_modify fun s c => by cases c <;> rfl

theorem closeCall_lowers : Changes closeCall (lower (some .calls)) :=
  changes_modify fun s c => by cases c <;> rfl

theorem closeAssign_lowers : Changes closeAssign (lower (some .assigns)) :=
  changes_modify fun s c => by
    dsimp only
    split <;> cases c <;> rfl

end

/-! Hooks. -/

theorem enterExpr_raises (e : Expr) : Changes (enterExpr e) (raise e.counter?) := by
  unfold enterExpr
  refine changes_rest (still_emitting _) fun _ => changes_rest still_get fun s => changes_if ?_ ?_
  · exact changes_refuse _ _ _
  cases e with
  | binary | unary | cast => exact openValue_raises
  | call => exact openCall_raises
  | bool | int | double | name => exact still_pure _
  | assign note op target value =>
      refine changes_if (changes_rest (still_demand _) fun _ => ?_) openAssign_raises
      exact changes_rest (still_emitting _) fun _ => openAssign_raises

theorem betweenExpr_still (e : Expr) : Still (betweenExpr e) := by
  cases e with
  | bool | int | double | name | binary | unary | cast | call => exact still_pure _
  | assign note op target value =>
      cases op with
      | plain => exact still_setMode _
      | compound op =>
          exact changes_rest (still_demand _) fun _ => changes_rest (still_demand _) fun _ =>
            changes_rest (still_emitting _) fun _ => still_setMode _

theorem leaveName_still (e : Expr) (name : String) (binding : Option Binding) :
    Still (leaveName e name binding) := by
  unfold leaveName
  refine changes_rest still_get fun s => ?_
  split
  · exact changes_throw _ _
  · exact still_emitting _
  · exact changes_rest (still_demand _) fun _ => still_emitting _
  · refine changes_rest (still_demand _) fun _ => changes_rest (still_emitting _) fun _ => ?_
    exact changes_rest still_get fun _ => changes_if (still_emitting _) (still_pure _)
  · exact changes_throw _ _

theorem leaveMutation_still (opcode : Opcode) (operand : Expr) :
    Still (leaveMutation opcode operand) :=
  changes_rest (still_demand _) fun _ => changes_rest (still_emitting _) fun _ =>
    changes_rest (still_emitting _) fun _ => still_emitting _

theorem leaveUnary_still (e : Expr) (op : UnaryOp) (operand : Expr) :
    Still (leaveUnary e op operand) := by
  cases op with
  | negate =>
      exact changes_rest (still_demand _) fun _ => changes_rest (still_demand _) fun _ =>
        still_emitting _
  | not => exact still_emitting (Emitter.emit .not)
  | increment | decrement => exact leaveMutation_still _ _

theorem leaveExpr_lowers (e : Expr) : Changes (leaveExpr e) (lower e.counter?) := by
  unfold leaveExpr
  refine changes_rest (still_emitting _) fun _ => ?_
  cases e with
  | bool | int | double => exact still_emitting _
  | name note name binding => exact leaveName_still _ _ _
  | binary note op left right =>
      exact changes_first closeValue_lowers fun _ => changes_rest (still_demand _) fun _ =>
        still_emitting _
  | unary note op operand => exact changes_first closeValue_lowers fun _ => leaveUnary_still _ _ _
  | cast note kind operand => exact changes_first closeValue_lowers fun _ => still_emitting _
  | assign note op target value => exact closeAssign_lowers
  | call note callee args => exact changes_first closeCall_lowers fun _ => still_emitting _

theorem enterStmt_raises (s : Stmt) : Changes (enterStmt s) (raise s.counter?) := by
  unfold enterStmt
  refine changes_rest (still_emitting _) fun _ => ?_
  cases s with
  | declare | enterIf => exact openValue_raises
  | expr | beginBlock | endBlock | leaveIf => exact still_pure _

theorem recordVariable_still (name : String) (ty : Ty) (id : VarId) :
    Still (recordVariable name ty id) :=
  changes_rest (still_demand _) fun _ => changes_modify fun _ c => by cases c <;> rfl

theorem discard_still (step : Emit α) : Still (discard (emitting step)) :=
  changes_rest (still_emitting _) fun _ => still_pure _

theorem leaveStmt_lowers {stmt : Stmt} (lasting : (Call.leaveStmt stmt).resets = false) :
    Changes (leaveStmt stmt) (lower stmt.counter?) := by
  unfold leaveStmt
  refine changes_rest (still_emitting _) fun _ => ?_
  cases stmt with
  | expr => cases lasting
  | declare line decl =>
      refine changes_first closeValue_lowers fun _ => ?_
      split
      · exact changes_throw _ _
      · have recording (id : VarId) : Still (recordVariable decl.name decl.ty id) :=
          recordVariable_still _ _ _
        exact changes_if (changes_rest (still_emitting _) fun _ => recording _) (recording _)
  | beginBlock | endBlock => exact still_emitting _
  | enterIf => exact changes_first closeValue_lowers fun _ => discard_still _
  | leaveIf => exact discard_still _

/-- Unless it fails, a call raises and lowers the counters that it is said to, and no other. -/
theorem hook_counts {call : Call} (lasting : call.resets = false) :
    Changes (generator.hook call) (lower call.lowers ∘ raise call.raises) := by
  cases call with
  | enterExpr e => exact enterExpr_raises e
  | betweenExpr e => exact betweenExpr_still e
  | leaveExpr e => exact leaveExpr_lowers e
  | enterStmt stmt => exact enterStmt_raises stmt
  | leaveStmt stmt => exact leaveStmt_lowers lasting

/-! What the counters are asked. -/

/-- Whether something waits for the value of what is visited next. -/
def awaited (s : Lowering) : Bool := waiting s.assigns s.calls s.values

section
variable {s t : Lowering}

theorem awaited_congr (same : t.count = s.count) : t.awaited = s.awaited := by
  show waiting (t.count .assigns) (t.count .calls) (t.count .values) = _
  rw [same]
  rfl

theorem keepsValue_congr (same : t.count = s.count) : t.keepsValue = s.keepsValue := by
  show decide (1 < t.count .assigns ∨ 0 < t.count .calls ∨ 0 < t.count .values) = _
  rw [same]
  rfl

theorem awaited_raised {c : Counter} {counts : Counts} (raised : t.count = raise (some c) counts) :
    t.awaited = true := by
  have positive : 0 < t.count c := by
    rw [raised, raise, Function.update_self]
    exact Nat.succ_pos _
  cases c with
  | assigns => exact decide_eq_true (.inl positive)
  | calls => exact decide_eq_true (.inr (.inl positive))
  | values => exact decide_eq_true (.inr (.inr positive))

theorem keepsValue_raised (raised : t.count = raise (some .assigns) s.count) :
    t.keepsValue = s.awaited := by
  -- The target of an assignment does not count the assignment that it belongs to.
  show decide (1 < t.count .assigns ∨ 0 < t.count .calls ∨ 0 < t.count .values) = _
  rw [raised]
  exact decide_eq_decide.mpr (or_congr_left Nat.succ_lt_succ_iff)

end

/-! Walks. -/

structure Tallies (calls : List Call) : Prop where
  covered : ∀ s, ∀ m ∈ momentsOf generator.hook calls s, m.Covered
  restores : ∀ s t, forM calls generator.hook s = .ok () t → t.count = s.count

theorem covered_idle {m : Moment Lowering} (idle : m.call.lowers = none) : m.Covered := by
  intro c lowered
  rw [idle] at lowered
  cases lowered

namespace Tallies
variable {calls others : List Call}

theorem nothing : Tallies [] where
  covered _ _ absent := by cases absent
  restores _ _ ran := by
    cases ran
    rfl

theorem append (first : Tallies calls) (rest : Tallies others) : Tallies (calls ++ others) where
  covered s m member := by
    rcases mem_momentsOf_append member with early | ⟨u, _, late⟩
    · exact first.covered s m early
    · exact rest.covered u m late
  restores s t ran := by
    rw [List.forM_append] at ran
    rcases bind_ok ran with ⟨_, u, early, late⟩
    rw [rest.restores u t late, first.restores s u early]

theorem between (e : Expr) : Tallies [.betweenExpr e] where
  covered s m member := by
    rcases mem_momentsOf_cons member with ⟨same, _⟩ | ⟨_, _, absent⟩
    · exact covered_idle (same ▸ rfl)
    · cases absent
  restores s t ran := by
    simp only [List.forM_cons, List.forM_nil, bind_pure_unit] at ran
    exact hook_counts rfl s () t ran

theorem covered_around (inner : Tallies calls) {first last : Call} (idle : first.lowers = none)
    (paired : first.raises = last.lowers) (lasting : first.resets = false) (s : Lowering) :
    ∀ m ∈ momentsOf generator.hook (first :: (calls ++ [last])) s, m.Covered := by
  -- What is called first raises what the last call lowers.
  intro m member
  rcases mem_momentsOf_cons member with ⟨same, _⟩ | ⟨u, entered, later⟩
  · exact covered_idle (same ▸ idle)
  rcases mem_momentsOf_append later with within | ⟨w, walked, behind⟩
  · exact inner.covered u m within
  rcases mem_momentsOf_cons behind with ⟨same, here⟩ | ⟨_, _, absent⟩
  · intro c lowered
    have raised : u.count = lower first.lowers (raise first.raises s.count) :=
      hook_counts lasting s () u entered
    rw [same, Option.mem_def] at lowered
    rw [idle, paired, lowered] at raised
    rw [here, inner.restores u w walked, raised, lower, raise, Function.update_self]
    exact Nat.succ_pos _
  · cases absent

theorem around (e : Expr) (inner : Tallies calls) :
    Tallies (.enterExpr e :: (calls ++ [.leaveExpr e])) where
  covered := inner.covered_around rfl rfl rfl
  restores s t ran := by
    rw [List.forM_cons] at ran
    rcases bind_ok ran with ⟨_, u, entered, later⟩
    rw [List.forM_append] at later
    rcases bind_ok later with ⟨_, w, walked, last⟩
    simp only [List.forM_cons, List.forM_nil, bind_pure_unit] at last
    have raised : u.count = raise e.counter? s.count := hook_counts rfl s () u entered
    calc t.count = lower e.counter? w.count := hook_counts rfl w () t last
      _ = lower e.counter? (raise e.counter? s.count) := by rw [inner.restores u w walked, raised]
      _ = s.count := lower_raise _ _

theorem flatMap {α : Type} {calls : α → List Call} (members : List α)
    (each : ∀ member ∈ members, Tallies (calls member)) : Tallies (members.flatMap calls) := by
  induction members with
  | nil => exact nothing
  | cons member rest ih =>
      rcases List.forall_mem_cons.mp each with ⟨own, others⟩
      exact own.append (ih others)

end Tallies

end Lowering

open Lowering (Tallies generator)

theorem Expr.calls_tally (e : Expr) : Tallies e.calls := by
  induction e with
  | bool | int | double | name =>
      rw [calls]
      exact Tallies.nothing.around _
  | binary note op left right first second =>
      rw [calls]
      exact (first.append ((Tallies.between _).append second)).around _
  | assign note op target value first second =>
      rw [calls]
      exact (second.append ((Tallies.between _).append first)).around _
  | unary note op operand inner =>
      rw [calls]
      exact inner.around _
  | cast note kind operand inner =>
      rw [calls]
      exact inner.around _
  | call note callee args target inner =>
      rw [calls, callsOfArgs_eq]
      exact ((Tallies.flatMap args inner).append target).around _

namespace Lowering

/-- A statement may put the counter of assignments back to zero, so it need not restore the
counters. -/
theorem stmt_covered (stmt : Stmt) (s : Lowering) :
    ∀ m ∈ momentsOf generator.hook stmt.calls s, m.Covered :=
  (Tallies.flatMap _ fun root _ => root.calls_tally).covered_around rfl rfl rfl s

/-- No counter is lowered below zero, on whatever tree and from whatever state. -/
theorem moments_covered (stmts : List Stmt) (start : Lowering) :
    ∀ m ∈ generator.moments stmts start, m.Covered := by
  rw [Visitor.moments_eq]
  induction stmts generalizing start with
  | nil => exact List.forall_mem_nil _
  | cons stmt rest ih =>
      intro m member
      rw [List.flatMap_cons] at member
      rcases mem_momentsOf_append member with own | ⟨u, _, later⟩
      · exact stmt_covered stmt start m own
      · exact ih u m later

end Lowering

end StackCompiler
