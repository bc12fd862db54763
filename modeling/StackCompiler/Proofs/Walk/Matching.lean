import StackCompiler.Proofs.Walk.Journal
import StackCompiler.Walk.Trace

/-!
Enter and leave.

Once a node is entered, a dialogue comes to its end only by leaving it, and what it asks between is
again entered and left. Whatever the hooks put in place of the nodes, the calls of a walk that did
not stop are matched (`outcome_matched`). Only a node that is a pair when its first operand has been
left is announced in the middle, and only once, even if it becomes something else there.
-/
namespace StackCompiler

variable {σ ε α β : Type}

/-- Nested pairs of entering and leaving, each with at most one announcement directly inside. -/
inductive Hook.Matched : List Hook → Prop
  | nil : Matched []
  | pair {inside behind : List Hook} (inner : Matched inside) (rest : Matched behind) :
      Matched (enter :: (inside ++ leave :: behind))
  | announced {early late behind : List Hook} (first : Matched early) (second : Matched late)
    (rest : Matched behind) :
      Matched (enter :: (early ++ between :: (late ++ leave :: behind)))

def Call.hook? : Call → Option Hook
  | .enterExpr _ => some .enter
  | .betweenExpr _ => some .between
  | .leaveExpr _ => some .leave
  | .enterStmt _ | .leaveStmt _ => none

def Call.Matched (calls : List Call) : Prop := Hook.Matched (calls.filterMap Call.hook?)

theorem Hook.Matched.append {first second : List Hook} (before : Matched first)
    (after : Matched second) :
    Matched (first ++ second) := by
  induction before with
  | nil => exact after
  | pair inner _ _ ih =>
      rw [List.cons_append, List.append_assoc, List.cons_append]
      exact .pair inner ih
  | announced early late _ _ _ ih =>
      rw [List.cons_append, List.append_assoc, List.cons_append, List.append_assoc,
        List.cons_append]
      exact .announced early late ih

namespace Call

theorem matched_nil : Matched [] := .nil

theorem Matched.append {first second : List Call} (before : Matched first)
    (after : Matched second) :
    Matched (first ++ second) := by
  rw [Matched, List.filterMap_append]
  exact Hook.Matched.append before after

theorem matched_pair {inside : List Call} (inner : Matched inside) (entered left : Expr) :
    Matched (.enterExpr entered :: (inside ++ [.leaveExpr left])) := by
  show Hook.Matched (.enter :: List.filterMap hook? (inside ++ [.leaveExpr left]))
  rw [List.filterMap_append]
  exact .pair inner .nil

theorem matched_announced {early late : List Call} (first : Matched early) (second : Matched late)
    (entered announced left : Expr) :
    Matched (.enterExpr entered ::
      (early ++ .betweenExpr announced :: (late ++ [.leaveExpr left]))) := by
  show Hook.Matched (.enter :: List.filterMap hook? (early ++
    .betweenExpr announced :: (late ++ [.leaveExpr left])))
  rw [List.filterMap_append]
  show Hook.Matched (.enter :: (_ ++ .between :: List.filterMap hook? (late ++ [.leaveExpr left])))
  rw [List.filterMap_append]
  exact .announced first second .nil

theorem matched_around {inside : List Call} (inner : Matched inside) (entered left : Stmt) :
    Matched (.enterStmt entered :: (inside ++ [.leaveStmt left])) := by
  rw [Matched, List.filterMap_cons_none rfl, List.filterMap_append]
  exact Hook.Matched.append inner .nil

end Call

namespace Dialogue
open Editor (journaled)

/-- Whatever is answered, the calls that are made until the dialogue is over have the property. -/
def Yields (post : List Call → Prop) (d : Dialogue α) : Prop :=
  match d with
  | ended _ => post []
  | spent _ => True
  | ask call resume _ => ∀ left, (resume left).Yields fun calls => post (call :: calls)

section
variable {d : Dialogue α} {mid post : List Call → Prop}

theorem Yields.mono (inner : d.Yields mid) (weaker : ∀ calls, mid calls → post calls) :
    d.Yields post := by
  induction d generalizing mid post with
  | ended node => exact weaker [] inner
  | spent node => trivial
  | ask call resume abandon ih =>
      exact fun left => ih left (inner left) fun calls => weaker (call :: calls)

theorem Yields.follow {early : α → β} {late : α → Dialogue β} (first : d.Yields mid)
    (rest : ∀ calls, mid calls → ∀ node, (late node).Yields fun more => post (calls ++ more)) :
    (d.follow early late).Yields post := by
  induction d generalizing mid post with
  | ended node => exact rest [] first node
  | spent node => trivial
  | ask call resume abandon ih =>
      exact fun left => ih left (first left) fun calls made => rest (call :: calls) made

theorem Yields.andThen {next : α → Dialogue α} (first : d.Yields mid)
    (rest : ∀ calls, mid calls → ∀ node, (next node).Yields fun more => post (calls ++ more)) :
    (d.andThen next).Yields post :=
  first.follow rest

end

theorem yields_composes : Composes fun _ d => d.Yields Call.Matched where
  ended _ := Call.matched_nil
  follow first rest :=
    first.follow fun _ made node => (rest node).mono fun _ others => made.append others

end Dialogue

namespace Expr
open Dialogue (Yields yields_composes)

theorem yields_dialogue (depth : Nat) (e : Expr) : (e.dialogue depth).Yields Call.Matched := by
  induction depth generalizing e with
  | zero => trivial
  | succ depth ih =>
      rw [dialogue, Dialogue.asking_andThen]
      intro entered
      apply Yields.andThen (yields_composes.first ih entered)
      intro early first node
      cases isPaired node with
      | false => exact fun _ => Call.matched_pair first e node
      | true =>
          rw [if_pos rfl, Dialogue.asking_andThen]
          intro announced
          apply Yields.andThen (yields_composes.second ih announced)
          exact fun late second last _ => Call.matched_announced first second e node last

end Expr

theorem Stmt.yields_dialogue (depth : Nat) (s : Stmt) : (s.dialogue depth).Yields Call.Matched := by
  rw [dialogue, Dialogue.asking_andThen]
  intro entered
  apply Dialogue.Yields.andThen (Dialogue.yields_composes.root (Expr.yields_dialogue depth) entered)
  exact fun calls inner left _ => Call.matched_around inner s left

namespace Dialogue
open Editor (journaled)

/-- What a dialogue yields for all answers is what an editor is asked in a walk that does not
stop. -/
theorem run_yields {vs : Nat → Editor σ ε} {d : Dialogue α} {post : List Call → Prop}
    (yields : d.Yields post) {j : Journal σ} (ran : (d.run (journaled vs) j).stopped = none) :
    ∃ new, (d.run (journaled vs) j).state.touches = j.touches ++ new ∧
      post (new.map Touch.call) := by
  induction d generalizing j post with
  | ended node => exact ⟨[], (List.append_nil _).symm, yields⟩
  | spent node => cases ran
  | ask call resume abandon ih =>
      rw [run_ask] at ran ⊢
      rcases visit : (vs j.touches.length).answer call j.state with ⟨left, after, _ | reason⟩
      · simp only [visit] at ran ⊢
        rcases ih left (yields left) ran with ⟨new, touches, holds⟩
        exact ⟨⟨j.cursor, call, left, j.state, after⟩ :: new,
          by rw [touches, Journal.note_append], holds⟩
      · simp only [visit] at ran
        cases ran

end Dialogue

theorem Editor.outcome_matched (vs : Nat → Editor σ ε) (depth : Nat) (stmts : List Stmt)
    (state : σ) (ran : (outcome vs depth stmts state).stopped = none) :
    Call.Matched ((outcome vs depth stmts state).state.touches.map Touch.call) := by
  rw [outcome_dialogue] at ran ⊢
  rcases Dialogue.run_yields (Dialogue.yields_composes.each (Stmt.yields_dialogue depth) stmts) ran
    with ⟨new, touches, made⟩
  rw [Dialogue.ofStmts, touches]
  exact made

end StackCompiler
