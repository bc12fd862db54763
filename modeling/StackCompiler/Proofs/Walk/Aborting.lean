import Mathlib.Logic.Function.Basic
import StackCompiler.Proofs.Walk.Agreement
import StackCompiler.Proofs.Walk.Places

/-!
Aborted walks.

A hook that fails ends the walk at once, wherever in the recursion it is called. So if the call of
some number fails, the walk has made the calls that it would have made otherwise up to and with that
one, and the tree is what the calls before it made of it (`walk_aborts`). Each level of the
recursion begins with a call, so the depth that such a walk can use up is bounded by the number of
the failing call.
-/
namespace StackCompiler

variable {σ ε α β : Type}

namespace Dialogue
open Editor (journaled)

/-! Depth and calls. -/

/-- The dialogue does not run out of depth before that many calls are made. -/
def Lasts (count : Nat) (d : Dialogue α) : Prop :=
  match d with
  | ended _ => True
  | spent _ => count = 0
  | ask _ resume _ => ∀ left, (resume left).Lasts (count - 1)

section
variable {d : Dialogue α} {count : Nat}

theorem Lasts.weaken (lasts : d.Lasts count) {less : Nat} (below : less ≤ count) :
    d.Lasts less := by
  induction d generalizing count less with
  | ended node => trivial
  | spent node => exact Nat.le_zero.mp (Nat.le_trans below (Nat.le_of_eq lasts))
  | ask call resume abandon ih =>
      exact fun left => ih left (lasts left) (Nat.sub_le_sub_right below 1)

theorem Lasts.follow {early : α → β} {late : α → Dialogue β} (first : d.Lasts count)
    (rest : ∀ node, (late node).Lasts count) : (d.follow early late).Lasts count := by
  induction d generalizing count with
  | ended node => exact rest node
  | spent node => exact first
  | ask call resume abandon ih =>
      exact fun left => ih left (first left) fun node => (rest node).weaken (Nat.sub_le count 1)

theorem Lasts.andThen {next : α → Dialogue α} (first : d.Lasts count)
    (rest : ∀ node, (next node).Lasts count) :
    (d.andThen next).Lasts count :=
  first.follow rest

theorem lasts_asking (call : Call) : (asking call).Lasts count := fun _ => trivial

theorem lasts_asked {call : Call} {next : call.Node → Dialogue call.Node}
    (rest : ∀ left, (next left).Lasts count) :
    ((asking call).andThen next).Lasts (count + 1) := by
  rw [asking_andThen]
  exact rest

end

theorem lasts_composes (count : Nat) : Composes fun _ d => d.Lasts count where
  ended _ := trivial
  follow := Lasts.follow

theorem lasts_expr (depth : Nat) (e : Expr) : (e.dialogue depth).Lasts depth := by
  -- Every level of the recursion begins with a call.
  induction depth generalizing e with
  | zero => rfl
  | succ depth ih =>
      refine lasts_asked fun e => ?_
      apply Lasts.andThen ((lasts_composes depth).first ih e)
      intro e
      cases Expr.isPaired e with
      | false => exact lasts_asking _
      | true =>
          apply (lasts_asking _).andThen
          exact fun e => Lasts.andThen ((lasts_composes depth).second ih e) fun e => lasts_asking _

theorem lasts_stmt (depth : Nat) (s : Stmt) : (s.dialogue depth).Lasts (depth + 1) :=
  lasts_asked fun s => Lasts.andThen ((lasts_composes depth).root (lasts_expr depth) s) fun _ =>
    lasts_asking _

theorem lasts_stmts (depth : Nat) (stmts : List Stmt) : (ofStmts depth stmts).Lasts (depth + 1) :=
  (lasts_composes (depth + 1)).each (lasts_stmt depth) stmts

theorem run_lasts {vs : Nat → Editor σ ε} {d : Dialogue α} {count : Nat}
    (lasts : d.Lasts count) {j : Journal σ}
    (spent : (d.run (journaled vs) j).stopped = some .exhausted) :
    j.touches.length + count ≤ (d.run (journaled vs) j).state.touches.length := by
  induction d generalizing count j with
  | ended node => cases spent
  | spent node => exact Nat.le_of_eq (congrArg (j.touches.length + ·) lasts)
  | ask call resume abandon ih =>
      rw [run_ask] at spent ⊢
      rcases visit : (vs j.touches.length).answer call j.state with ⟨left, after, _ | reason⟩
      · simp only [visit] at spent ⊢
        have later := ih left (lasts left) spent
        have longer := j.note_length call left after
        omega
      · simp only [visit] at spent
        cases spent

end Dialogue

/-! A call that fails. -/

namespace Editor

def failing (fail : Call → σ → ε × σ) : Editor σ ε :=
  answering fun call state => .stop call.node (fail call state).2 (fail call state).1

end Editor

def Touch.refused (t : Touch σ) (after : σ) : Touch σ :=
  ⟨t.cursor, t.call, t.call.node, t.before, after⟩

namespace Dialogue
open Editor (journaled failing)

variable {vs : Nat → Editor σ ε} {n : Nat}

/-- If the call is not made, it does not matter that it would have failed. -/
theorem run_unaborted (fail : Call → σ → ε × σ) (d : Dialogue α) (j : Journal σ)
    (few : (d.run (journaled vs) j).state.touches.length ≤ n) :
    d.run (journaled (Function.update vs n (failing fail))) j = d.run (journaled vs) j := by
  apply run_agrees
  intro i t _ made
  have other : i ≠ n := by
    have within := (List.getElem?_eq_some_iff.mp made).1
    omega
  rw [Function.update_of_ne other]

/-- If it is made, it is the last one. -/
theorem run_aborted (fail : Call → σ → ε × σ) (d : Dialogue α) {j : Journal σ}
    (early : j.touches.length ≤ n)
    {t : Touch σ} (made : (d.run (journaled vs) j).state.touches[n]? = some t) :
    (d.run (journaled (Function.update vs n (failing fail))) j).state.touches =
        (d.run (journaled vs) j).state.touches.take n ++ [t.refused (fail t.call t.before).2] ∧
      (d.run (journaled (Function.update vs n (failing fail))) j).stopped =
        some (.failed (fail t.call t.before).1) := by
  induction d generalizing j with
  | ended node => exact absurd (List.getElem?_eq_some_iff.mp made).1 (Nat.not_lt.mpr early)
  | spent node => exact absurd (List.getElem?_eq_some_iff.mp made).1 (Nat.not_lt.mpr early)
  | ask call resume abandon ih =>
      rcases Nat.lt_or_eq_of_le early with before | rfl
      · rw [run_ask] at made
        rw [run_ask, run_ask, Function.update_of_ne (Nat.ne_of_lt before)]
        rcases visit : (vs j.touches.length).answer call j.state with ⟨left, after, _ | reason⟩
        · simp only [visit] at made
          have longer := j.note_length call left after
          exact ih left (by omega) made
        · simp only [visit] at made
          have within : n < (j.note call left after).touches.length :=
            (List.getElem?_eq_some_iff.mp made).1
          have longer := j.note_length call left after
          omega
      · have front := List.prefix_iff_eq_take.mp (run_grows vs (ask call resume abandon) j)
        rw [run_ask_noted] at made
        cases made
        rw [← front, run_ask, Function.update_self, failing, Editor.answer_answering]
        exact ⟨rfl, rfl⟩

end Dialogue

/-! Reading walks. -/

namespace Visitor
open Visit (keeping Reads)

def hooking (act : Call → EStateM ε σ Unit) : Visitor σ ε where
  enterExpr e := act (.enterExpr e)
  betweenExpr e := act (.betweenExpr e)
  leaveExpr e := act (.leaveExpr e)
  enterStmt s := act (.enterStmt s)
  leaveStmt s := act (.leaveStmt s)

def journaled (vs : Nat → Visitor σ ε) : Visitor (Journal σ) ε :=
  hooking fun call j =>
    match (vs j.touches.length).hook call j.state with
    | .ok _ after => .ok () (j.note call call.node after)
    | .error reason after => .error reason (j.note call call.node after)

def failing (fail : Call → σ → ε × σ) : Visitor σ ε :=
  hooking fun call state => .error (fail call state).1 (fail call state).2

theorem hook_hooking (act : Call → EStateM ε σ Unit) (call : Call) :
    (hooking act).hook call = act call := by
  cases call <;> rfl

theorem hook_journaled (vs : Nat → Visitor σ ε) (call : Call) (j : Journal σ) :
    (journaled vs).hook call j =
      match (vs j.touches.length).hook call j.state with
      | .ok _ after => .ok () (j.note call call.node after)
      | .error reason after => .error reason (j.note call call.node after) :=
  congrFun (hook_hooking _ call) j

theorem editing_answer (v : Visitor σ ε) (call : Call) (state : σ) :
    v.editing.answer call state = keeping call.node (v.hook call state) := by
  cases call <;> rfl

/-- The journal of a visitor is that of the editor that does what it does. -/
theorem editing_journaled (vs : Nat → Visitor σ ε) :
    (journaled vs).editing = Editor.journaled fun i => (vs i).editing := by
  have answers :
      (journaled vs).editing.answer = (Editor.journaled fun i => (vs i).editing).answer := by
    funext call j
    rw [editing_answer, hook_journaled, Editor.journaled, Editor.answer_answering]
    simp only [editing_answer]
    cases (vs j.touches.length).hook call j.state <;> rfl
  exact congrArg Editor.answering answers

theorem editing_failing (vs : Nat → Visitor σ ε) (n : Nat) (fail : Call → σ → ε × σ) :
    (fun i => (Function.update vs n (failing fail) i).editing) =
      Function.update (fun i => (vs i).editing) n (Editor.failing fail) := by
  funext i
  exact Function.apply_update (fun _ v => v.editing) vs n (failing fail) i

def outcome (vs : Nat → Visitor σ ε) (stmts : List Stmt) (state : σ) :
    Visit (Journal σ) (Halt ε) (List Stmt) :=
  (keeping stmts ((journaled vs).walkStmts stmts (.start state))).mapStopped Halt.failed

end Visitor

theorem Visitor.outcome_edits (vs : Nat → Visitor σ ε) (stmts : List Stmt) (state : σ)
    {depth : Nat} (enough : ∀ s ∈ stmts, ∀ root ∈ s.root?, root.height ≤ depth) :
    Editor.outcome (fun i => (vs i).editing) depth stmts state =
      Visitor.outcome vs stmts state := by
  have reads := Visit.reads_each fun s member => (journaled vs).editing_stmt s (enough s member)
  rw [Editor.outcome, ← editing_journaled]
  exact reads (.start state)

theorem exists_depth (stmts : List Stmt) :
    ∃ depth, ∀ s ∈ stmts, ∀ root ∈ s.root?, root.height ≤ depth := by
  induction stmts with
  | nil => exact ⟨0, List.forall_mem_nil _⟩
  | cons s rest ih =>
      rcases ih with ⟨depth, enough⟩
      refine ⟨max (s.root?.elim 0 Expr.height) depth, List.forall_mem_cons.mpr ⟨?_, ?_⟩⟩
      · intro root held
        rw [Option.mem_def.mp held]
        exact Nat.le_max_left ..
      · exact fun other member root held =>
          Nat.le_trans (enough other member root held) (Nat.le_max_right ..)

/-- The one walk is the other up to a call that fails in it: if that call is not made they are the
same, and otherwise it is the last one, and the statements are what the calls before it made of
them. -/
structure AbortedAt (n : Nat) (fail : Call → σ → ε × σ) (stmts : List Stmt)
    (whole aborted : Visit (Journal σ) (Halt ε) (List Stmt)) : Prop where
  unmade : whole.state.touches.length ≤ n → aborted = whole
  made : ∀ t, whole.state.touches[n]? = some t →
    aborted.state.touches = whole.state.touches.take n ++ [t.refused (fail t.call t.before).2] ∧
      aborted.stopped = some (.failed (fail t.call t.before).1) ∧
      aborted.node = (whole.state.touches.take n).foldl Touch.put stmts

namespace Editor

theorem outcome_aborted (vs : Nat → Editor σ ε) (n : Nat) (fail : Call → σ → ε × σ)
    (depth : Nat) (stmts : List Stmt) (state : σ) :
    AbortedAt n fail stmts (outcome vs depth stmts state)
      (outcome (Function.update vs n (failing fail)) depth stmts state) := by
  constructor
  · intro few
    rw [outcome_dialogue] at few
    rw [outcome_dialogue, outcome_dialogue]
    exact Dialogue.run_unaborted fail _ _ few
  · intro t made
    have patched := walkStmts_patched (Function.update vs n (failing fail)) depth stmts state
    rw [outcome_dialogue] at made patched
    rw [outcome_dialogue, outcome_dialogue]
    have aborted := Dialogue.run_aborted fail _ (Nat.zero_le n) made
    rw [aborted.1] at patched
    exact ⟨aborted.1, aborted.2, patched.unchanged rfl⟩

/-- A walk one call of which fails does not run out of depth before that call. -/
theorem outcome_bounded (vs : Nat → Editor σ ε) (n : Nat) (fail : Call → σ → ε × σ)
    {depth : Nat} (deep : n ≤ depth) (stmts : List Stmt) (state : σ) :
    (outcome (Function.update vs n (failing fail)) depth stmts state).stopped ≠
      some .exhausted := by
  intro spent
  have aborted := outcome_aborted vs n fail depth stmts state
  rcases Nat.lt_or_ge n (outcome vs depth stmts state).state.touches.length with made | few
  · have found := List.getElem?_eq_getElem made
    rw [(aborted.made _ found).2.1] at spent
    cases spent
  · rw [aborted.unmade few, outcome_dialogue] at spent
    rw [outcome_dialogue] at few
    have calls := Dialogue.run_lasts (Dialogue.lasts_stmts depth stmts) spent
    omega

end Editor

/-- A failing call ends a walk of either kind: it is preceded by the calls that are made if it does
not fail, followed by none, and leaves the tree as these calls had left it. -/
theorem walks_abort (readers : Nat → Visitor σ ε) (editors : Nat → Editor σ ε) (n : Nat)
    (fail : Call → σ → ε × σ) (stmts : List Stmt) (state : σ) :
    AbortedAt n fail stmts (Visitor.outcome readers stmts state)
        (Visitor.outcome (Function.update readers n (.failing fail)) stmts state) ∧
      ∀ depth, AbortedAt n fail stmts (Editor.outcome editors depth stmts state)
          (Editor.outcome (Function.update editors n (.failing fail)) depth stmts state) ∧
        (n ≤ depth →
          (Editor.outcome (Function.update editors n (.failing fail)) depth stmts state).stopped ≠
            some .exhausted) := by
  refine ⟨?_, fun depth => ⟨Editor.outcome_aborted editors n fail depth stmts state, fun deep =>
    Editor.outcome_bounded editors n fail deep stmts state⟩⟩
  rcases exists_depth stmts with ⟨depth, enough⟩
  have edits := Editor.outcome_aborted (fun i => (readers i).editing) n fail depth stmts state
  rw [← Visitor.editing_failing, Visitor.outcome_edits _ stmts state enough,
    Visitor.outcome_edits _ stmts state enough] at edits
  exact edits

def widening (i : Nat) : Editor Unit Nat :=
  .answering fun call state =>
    match i, call with
    | 1, .enterExpr e => .done (e.convert .intToDouble) state
    | _, call => .done call.node state

def widened : List Stmt := [.expr 1 (.unary ⟨1, none⟩ .negate (.int ⟨1, none⟩ 3))]

theorem widened_aborts :
    ∃ t, (Editor.outcome widening 4 widened ()).state.touches[4]? = some t ∧
      (Editor.outcome (Function.update widening 4 (.failing fun _ _ => (7, ()))) 4 widened
          ()).state.touches =
        (Editor.outcome widening 4 widened ()).state.touches.take 4 ++ [t.refused ()] ∧
      (Editor.outcome (Function.update widening 4 (.failing fun _ _ => (7, ()))) 4 widened
          ()).node =
        [.expr 1 (.cast ⟨1, some .double⟩ .intToDouble
          (.unary ⟨1, none⟩ .negate (.int ⟨1, none⟩ 3)))] ∧
      (Editor.outcome (Function.update widening 4 (.failing fun _ _ => (7, ()))) 4 widened
          ()).stopped ≠ some .exhausted :=
  have whole := walks_abort (fun _ => .hooking fun _ => pure ()) widening 4 (fun _ _ => (7, ()))
    widened ()
  have aborts := whole.2 4
  have made := aborts.1.made _ rfl
  ⟨_, rfl, made.1, made.2.2, aborts.2 (Nat.le_refl 4)⟩

end StackCompiler
