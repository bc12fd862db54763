import StackCompiler.Proofs.Walk.Dialogue

/-!
The journal of a walk.

An editor may answer every call in another way, by the number of the call. The journal beside its
state tells of each call which node was given, where this node stands, and which node was left
there. Where it stands follows from the calls before: how many statements were left and, for each
node that is still open, how many of its operands.

The answers to the calls determine the walk (`run_agrees`).
-/
namespace StackCompiler

variable {σ ε α : Type}

/-- The statements left so far and, for each open node, the innermost first, the operands left so
far. -/
structure Cursor where
  index : Nat
  counts : List Nat

namespace Cursor

def start : Cursor := ⟨0, []⟩

/-- The way from the root of an expression to the node of a call. Operands are counted in visiting
order. -/
def path (c : Cursor) : Call → List Nat
  | .enterExpr _ => c.counts.reverse
  | _ => c.counts.tail.reverse

def count : List Nat → List Nat
  | [] => []
  | left :: outer => (left + 1) :: outer

def next (c : Cursor) : Call → Cursor
  | .enterExpr _ => ⟨c.index, 0 :: c.counts⟩
  | .betweenExpr _ | .enterStmt _ => c
  | .leaveExpr _ => ⟨c.index, count c.counts.tail⟩
  | .leaveStmt _ => ⟨c.index + 1, []⟩

end Cursor

namespace Expr

def modifyOperand (f : Expr → Expr) (index : Nat) (e : Expr) : Expr :=
  match e, index with
  | binary note op left right, 0 => binary note op (f left) right
  | binary note op left right, 1 => binary note op left (f right)
  | assign note op target value, 0 => assign note op target (f value)
  | assign note op target value, 1 => assign note op (f target) value
  | unary note op operand, 0 => unary note op (f operand)
  | cast note kind operand, 0 => cast note kind (f operand)
  | call note callee args, index =>
      if index = args.length then call note (f callee) args
        else call note callee (args.modify index f)
  | e, _ => e

def modifyAt (f : Expr → Expr) : (path : List Nat) → Expr → Expr
  | [], e => f e
  | index :: path, e => e.modifyOperand (modifyAt f path) index

end Expr

def Stmt.modifyRoot (f : Expr → Expr) : Stmt → Stmt
  | expr line value => expr line (f value)
  | declare line decl => declare line { decl with init := decl.init.map f }
  | enterIf line condition => enterIf line (f condition)
  | s => s

def Cursor.put (c : Cursor) (stmts : List Stmt) : (call : Call) → call.Node → List Stmt
  | .enterExpr e, left =>
      stmts.modify c.index (Stmt.modifyRoot (Expr.modifyAt (fun _ => left) (c.path (.enterExpr e))))
  | .betweenExpr e, left =>
      stmts.modify c.index
        (Stmt.modifyRoot (Expr.modifyAt (fun _ => left) (c.path (.betweenExpr e))))
  | .leaveExpr e, left =>
      stmts.modify c.index (Stmt.modifyRoot (Expr.modifyAt (fun _ => left) (c.path (.leaveExpr e))))
  | .enterStmt _, left | .leaveStmt _, left => stmts.set c.index left

/-- A call, where its node stands, the node that was left there, and the states before and after. -/
structure Touch (σ : Type) where
  cursor : Cursor
  call : Call
  left : call.Node
  before : σ
  after : σ

def Touch.put (stmts : List Stmt) (t : Touch σ) : List Stmt := t.cursor.put stmts t.call t.left

structure Journal (σ : Type) where
  state : σ
  cursor : Cursor
  touches : List (Touch σ)

namespace Journal

def start (state : σ) : Journal σ := ⟨state, .start, []⟩

def note (j : Journal σ) (call : Call) (left : call.Node) (after : σ) : Journal σ :=
  ⟨after, j.cursor.next call, j.touches ++ [⟨j.cursor, call, left, j.state, after⟩]⟩

section
variable (j : Journal σ) (call : Call) (left : call.Node) (after : σ)

theorem note_length : (j.note call left after).touches.length = j.touches.length + 1 :=
  List.length_append

theorem note_append (more : List (Touch σ)) :
    (j.note call left after).touches ++ more =
      j.touches ++ ⟨j.cursor, call, left, j.state, after⟩ :: more :=
  List.append_cons .. |>.symm

end

end Journal

namespace Editor

/-- Answers each call with the editor of its number and keeps a journal. -/
def journaled (vs : Nat → Editor σ ε) : Editor (Journal σ) ε :=
  answering fun call j =>
    let visit := (vs j.touches.length).answer call j.state
    visit.mapState (j.note call visit.node)

def outcome (vs : Nat → Editor σ ε) (depth : Nat) (stmts : List Stmt) (state : σ) :
    Visit (Journal σ) (Halt ε) (List Stmt) :=
  (journaled vs).walkStmts depth stmts (.start state)

theorem outcome_dialogue (vs : Nat → Editor σ ε) (depth : Nat) (stmts : List Stmt) (state : σ) :
    outcome vs depth stmts state =
      (Dialogue.ofStmts depth stmts).run (journaled vs) (.start state) :=
  (journaled vs).walkStmts_dialogue depth stmts (.start state)

/-- A journal does not interfere. -/
theorem journaled_projects (v : Editor σ ε) :
    (journaled fun _ => v).Projects Journal.state v where
  enterExpr _ _ := rfl
  betweenExpr _ _ := rfl
  leaveExpr _ _ := rfl
  enterStmt _ _ := rfl
  leaveStmt _ _ := rfl

theorem outcome_walk (v : Editor σ ε) (depth : Nat) (stmts : List Stmt) (state : σ) :
    (outcome (fun _ => v) depth stmts state).mapState Journal.state =
      v.walkStmts depth stmts state :=
  Visit.each_mapState Journal.state (walkStmt_projects v.journaled_projects depth) stmts
    (.start state)

end Editor

namespace Dialogue
open Editor (journaled)

variable {vs : Nat → Editor σ ε}

theorem run_ask (call : Call) (resume : call.Node → Dialogue α) (abandon : call.Node → α)
    (j : Journal σ) :
    (ask call resume abandon).run (journaled vs) j =
      match (vs j.touches.length).answer call j.state with
      | ⟨left, after, none⟩ => (resume left).run (journaled vs) (j.note call left after)
      | ⟨left, after, some reason⟩ =>
          .stop (abandon left) (j.note call left after) (.failed reason) := by
  rw [run, journaled, Editor.answer_answering]
  rcases (vs j.touches.length).answer call j.state with ⟨left, after, _ | reason⟩ <;> rfl

theorem run_grows (vs : Nat → Editor σ ε) (d : Dialogue α) (j : Journal σ) :
    j.touches <+: (d.run (journaled vs) j).state.touches := by
  induction d generalizing j with
  | ended node => exact List.prefix_refl _
  | spent node => exact List.prefix_refl _
  | ask call resume abandon ih =>
      have noted (left : call.Node) (after : σ) : j.touches <+: (j.note call left after).touches :=
        List.prefix_append _ _
      rw [run_ask]
      rcases (vs j.touches.length).answer call j.state with ⟨left, after, _ | reason⟩
      · exact (noted left after).trans (ih left _)
      · exact noted left after

theorem run_keeps (d : Dialogue α) (j : Journal σ) {i : Nat} (known : i < j.touches.length) :
    (d.run (journaled vs) j).state.touches[i]? = j.touches[i]? := by
  rcases run_grows vs d j with ⟨more, same⟩
  rw [← same, List.getElem?_append_left known]

/-- The first call of a dialogue is the next one of the journal. -/
theorem run_ask_noted (call : Call) (resume : call.Node → Dialogue α)
    (abandon : call.Node → α) (j : Journal σ) :
    ((ask call resume abandon).run (journaled vs) j).state.touches[j.touches.length]? =
      some ⟨j.cursor, call, ((vs j.touches.length).answer call j.state).node, j.state,
        ((vs j.touches.length).answer call j.state).state⟩ := by
  have noted (left : call.Node) (after : σ) :
      (j.note call left after).touches[j.touches.length]? =
      some ⟨j.cursor, call, left, j.state, after⟩ :=
    List.getElem?_concat_length
  have within (left : call.Node) (after : σ) :
      j.touches.length < (j.note call left after).touches.length :=
    (List.getElem?_eq_some_iff.mp (noted left after)).1
  rw [run_ask]
  rcases (vs j.touches.length).answer call j.state with ⟨left, after, _ | reason⟩
  · exact (run_keeps _ _ (within left after)).trans (noted left after)
  · exact noted left after

theorem run_answered (d : Dialogue α) (j : Journal σ) {i : Nat} {t : Touch σ}
    (later : j.touches.length ≤ i) (found : (d.run (journaled vs) j).state.touches[i]? = some t) :
    ((vs i).answer t.call t.before).node = t.left := by
  induction d generalizing j with
  | ended node => exact absurd (List.getElem?_eq_some_iff.mp found).1 (Nat.not_lt.mpr later)
  | spent node => exact absurd (List.getElem?_eq_some_iff.mp found).1 (Nat.not_lt.mpr later)
  | ask call resume abandon ih =>
      rcases Nat.lt_or_eq_of_le later with behind | rfl
      · rw [run_ask] at found
        rcases visit : (vs j.touches.length).answer call j.state with ⟨left, after, _ | reason⟩
        · simp only [visit] at found
          have longer := j.note_length call left after
          exact ih left _ (by omega) found
        · simp only [visit] at found
          have within : i < (j.note call left after).touches.length :=
            (List.getElem?_eq_some_iff.mp found).1
          have longer := j.note_length call left after
          omega
      · rw [run_ask_noted] at found
        cases found
        rfl

/-- Editors that give the same answers to the calls that are made make the same walk. -/
theorem run_agrees {ws : Nat → Editor σ ε} (d : Dialogue α) (j : Journal σ)
    (alike : ∀ i t, j.touches.length ≤ i →
      (d.run (journaled vs) j).state.touches[i]? = some t →
      (ws i).answer t.call t.before = (vs i).answer t.call t.before) :
    d.run (journaled ws) j = d.run (journaled vs) j := by
  induction d generalizing j with
  | ended node => rfl
  | spent node => rfl
  | ask call resume abandon ih =>
      have here :
          (ws j.touches.length).answer call j.state = (vs j.touches.length).answer call j.state :=
        alike _ _ (Nat.le_refl _) (run_ask_noted call resume abandon j)
      rw [run_ask] at alike
      rw [run_ask, run_ask, here]
      rcases visit : (vs j.touches.length).answer call j.state with ⟨left, after, _ | reason⟩
      · simp only [visit] at alike
        have longer := j.note_length call left after
        exact ih left _ fun i t later found => alike i t (by omega) found
      · rfl

end Dialogue

end StackCompiler
