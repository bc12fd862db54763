import Mathlib.Data.Set.Finite.Lattice
import StackCompiler.Proofs.Walk.Logging
import StackCompiler.Proofs.Walk.Matching

/-!
Walks that end.

A hook may replace a node by a larger one just before its operands are visited, so a walk need not
end. It does if only finitely many calls replace their node (`walkStmts_ends`): behind the last of
them the walk descends a tree that does not change, and before it every level of the recursion
begins with a call, which brings the last one nearer. Where a walk ends it comes to the same with
every greater depth.
-/
namespace StackCompiler

variable {σ ε α β : Type}

namespace Dialogue
open Editor (journaled)

/-- With enough depth the dialogues all come to one visit, which does not run out of depth, and
which leaves the node as it was if the calls that may replace theirs are over. -/
def Settles (vs : Nat → Editor σ ε) (bound : Nat) (d : Nat → Dialogue α) (node : α)
    (j : Journal σ) : Prop :=
  ∃ visit enough, (∀ depth, enough ≤ depth → (d depth).run (journaled vs) j = visit) ∧
    visit.stopped ≠ some .exhausted ∧
      (visit.stopped = none → bound ≤ j.touches.length → visit.node = node)

section
variable {vs : Nat → Editor σ ε} {bound : Nat} {d : Nat → Dialogue α} {node : α} {j : Journal σ}

theorem settles_ended : Settles vs bound (fun _ => ended node) node j :=
  ⟨.done node j, 0, fun _ _ => rfl, nofun, fun _ _ => rfl⟩

theorem Settles.follow {early : α → β} {late : Nat → α → Dialogue β}
    (first : Settles vs bound d node j)
    (rest : ∀ left (k : Journal σ), j.touches <+: k.touches →
      (bound ≤ j.touches.length → left = node) →
      Settles vs bound (fun depth => late depth left) (early left) k) :
    Settles vs bound (fun depth => (d depth).follow early (late depth)) (early node) j := by
  rcases first with ⟨⟨left, k, _ | reason⟩, enough, runs, ends, keeps⟩
  · have grows : j.touches <+: k.touches := by
      have grown := run_grows vs (d enough) j
      rwa [runs enough (Nat.le_refl enough)] at grown
    have kept : bound ≤ j.touches.length → left = node := keeps rfl
    rcases rest left k grows kept with ⟨visit, further, continues, last, stays⟩
    refine ⟨visit, max enough further, ?_, last, ?_⟩
    · intro depth deep
      rw [run_follow, runs depth (Nat.le_trans (Nat.le_max_left ..) deep)]
      exact continues depth (Nat.le_trans (Nat.le_max_right ..) deep)
    · intro ran behind
      rw [stays ran (Nat.le_trans behind grows.length_le), kept behind]
  · refine ⟨.stop (early left) k reason, enough, ?_, ends, nofun⟩
    intro depth deep
    rw [run_follow, runs depth deep]

theorem Settles.andThen {next : Nat → α → Dialogue α} (first : Settles vs bound d node j)
    (rest : ∀ left (k : Journal σ), j.touches <+: k.touches →
      (bound ≤ j.touches.length → left = node) →
      Settles vs bound (fun depth => next depth left) left k) :
    Settles vs bound (fun depth => (d depth).andThen (next depth)) node j :=
  first.follow rest

theorem Settles.map {f : α → β} (inner : Settles vs bound d node j) :
    Settles vs bound (fun depth => (d depth).map f) (f node) j :=
  inner.follow fun _ _ _ _ => settles_ended

theorem Settles.deeper (inner : Settles vs bound (fun depth => d (depth + 1)) node j) :
    Settles vs bound d node j := by
  rcases inner with ⟨visit, enough, runs, rest⟩
  refine ⟨visit, enough + 1, ?_, rest⟩
  intro depth deep
  cases depth with
  | zero => cases deep
  | succ depth => exact runs depth (Nat.le_of_succ_le_succ deep)

theorem settles_each {visit : Nat → α → Dialogue α} {members : List α}
    (one : ∀ member ∈ members, ∀ k : Journal σ, j.touches <+: k.touches →
      Settles vs bound (fun depth => visit depth member) member k) :
    Settles vs bound (fun depth => each (visit depth) members) members j := by
  induction members generalizing j with
  | nil => exact settles_ended
  | cons member rest ih =>
      rcases List.forall_mem_cons.mp one with ⟨first, others⟩
      apply (first j (List.prefix_refl _)).follow
      intro left k grows _
      exact (ih fun other among l later => others other among l (grows.trans later)).map

def StillFrom (vs : Nat → Editor σ ε) (bound : Nat) : Prop :=
  ∀ i, bound ≤ i → ∀ call state, ((vs i).answer call state).node = call.node

theorem settles_asked (still : StillFrom vs bound) (call : Call)
    {next : Nat → call.Node → Dialogue call.Node}
    (rest : ∀ left (k : Journal σ), j.touches.length < k.touches.length →
      (bound ≤ j.touches.length → left = call.node) →
        Settles vs bound (fun depth => next depth left) left k) :
    Settles vs bound (fun depth => (asking call).andThen (next depth)) call.node j := by
  have unchanged := still j.touches.length
  rcases visit : (vs j.touches.length).answer call j.state with ⟨left, after, _ | reason⟩
  · have longer : j.touches.length < (j.note call left after).touches.length :=
      Nat.lt_of_lt_of_eq (Nat.lt_succ_self _) (j.note_length call left after).symm
    have kept : bound ≤ j.touches.length → left = call.node := fun behind => by
      rw [← unchanged behind call j.state, visit]
    rcases rest left _ longer kept with ⟨whole, enough, runs, ends, stays⟩
    refine ⟨whole, enough, ?_, ends, ?_⟩
    · intro depth deep
      show ((asking call).andThen (next depth)).run (journaled vs) j = whole
      rw [asking_andThen, run_ask, visit]
      exact runs depth deep
    · intro ran behind
      rw [stays ran (Nat.le_of_lt (Nat.lt_of_le_of_lt behind longer)), kept behind]
  · refine ⟨.stop left (j.note call left after) (.failed reason), 0, ?_, nofun, nofun⟩
    intro depth _
    show ((asking call).andThen (next depth)).run (journaled vs) j = _
    rw [asking_andThen, run_ask, visit]
    rfl

theorem settles_asking (still : StillFrom vs bound) (call : Call) :
    Settles vs bound (fun _ => asking call) call.node j :=
  settles_asked still call fun _ _ _ _ => settles_ended

end

end Dialogue

namespace Expr
open Dialogue (Settles StillFrom)

theorem operands_induction {motive : Expr → Prop}
    (node : ∀ e, (∀ operand ∈ e.operands, motive operand) → motive e) (e : Expr) :
    motive e := by
  induction e with
  | bool | int | double | name => exact node _ (List.forall_mem_nil _)
  | binary note op left right first second => exact node _ (by simp [operands, first, second])
  | assign note op target value second first => exact node _ (by simp [operands, first, second])
  | unary note op operand only => exact node _ (List.forall_mem_singleton.mpr only)
  | cast note kind operand only => exact node _ (List.forall_mem_singleton.mpr only)
  | call note callee args last passed =>
      exact node _ (List.forall_mem_append.mpr ⟨passed, List.forall_mem_singleton.mpr last⟩)

section
variable {vs : Nat → Editor σ ε} {bound : Nat} {e : Expr} {j : Journal σ}

section
variable (one : ∀ operand ∈ e.operands, ∀ k : Journal σ, j.touches <+: k.touches →
  Settles vs bound (fun depth => operand.dialogue depth) operand k)
include one

theorem settles_first : Settles vs bound (fun depth => e.askFirst (dialogue depth)) e j := by
  have here (operand : Expr) (member : operand ∈ e.operands) :=
    one operand member j (List.prefix_refl _)
  cases e with
  | bool | int | double | name => exact Dialogue.settles_ended
  | binary note op left right => exact (here left (by simp [operands])).map
  | assign note op target value => exact (here value (by simp [operands])).map
  | unary note op operand => exact (here operand (by simp [operands])).map
  | cast note kind operand => exact (here operand (by simp [operands])).map
  | call note callee args =>
      have passed : Settles vs bound (fun depth => Dialogue.each (dialogue depth) args) args j :=
        Dialogue.settles_each fun arg member => one arg (by simp [operands, member])
      apply passed.follow
      exact fun args k grows _ => (one callee (by simp [operands]) k grows).map

theorem settles_second : Settles vs bound (fun depth => e.askSecond (dialogue depth)) e j := by
  have here (operand : Expr) (member : operand ∈ e.operands) :=
    one operand member j (List.prefix_refl _)
  cases e with
  | binary note op left right => exact (here right (by simp [operands])).map
  | assign note op target value => exact (here target (by simp [operands])).map
  | bool | int | double | name | unary | call | cast => exact Dialogue.settles_ended

end

/-- It is enough that the operands settle of whatever the node is by the time when they are
visited. -/
theorem settles_node (still : StillFrom vs bound)
    (inner : ∀ (k : Journal σ) (left : Expr), j.touches.length < k.touches.length →
      (bound ≤ j.touches.length → left = e) → ∀ operand ∈ left.operands,
        Settles vs bound (fun depth => operand.dialogue depth) operand k) :
    Settles vs bound (fun depth => e.dialogue depth) e j := by
  apply Settles.deeper
  apply Dialogue.settles_asked still (.enterExpr e)
  intro entered k later kept
  have first : Settles vs bound (fun depth => entered.askFirst (dialogue depth)) entered k :=
    settles_first fun operand member l grows =>
      inner l entered (Nat.lt_of_lt_of_le later grows.length_le) kept operand member
  apply first.andThen
  intro middle l grows same
  have reached : j.touches.length < l.touches.length := Nat.lt_of_lt_of_le later grows.length_le
  cases isPaired middle with
  | false => exact Dialogue.settles_asking still (.leaveExpr middle)
  | true =>
      apply Dialogue.settles_asked still (.betweenExpr middle)
      intro announced m after still_same
      have second :
          Settles vs bound (fun depth => announced.askSecond (dialogue depth)) announced m := by
        refine settles_second fun operand member n grown => inner n announced ?_ ?_ operand member
        · exact Nat.lt_trans reached (Nat.lt_of_lt_of_le after grown.length_le)
        · intro behind
          rw [still_same (Nat.le_trans behind (Nat.le_of_lt reached)), Call.node,
            same (Nat.le_trans behind (Nat.le_of_lt later)), kept behind]
          rfl
      exact second.andThen fun last _ _ _ => Dialogue.settles_asking still (.leaveExpr last)

/-- Behind the bound the tree does not change, so the walk descends it. -/
theorem settles_behind (still : StillFrom vs bound) (behind : bound ≤ j.touches.length) :
    Settles vs bound (fun depth => e.dialogue depth) e j := by
  induction e using operands_induction generalizing j with
  | node e ih =>
      apply settles_node still
      intro k left later kept operand member
      rw [kept behind] at member
      exact ih operand member (Nat.le_trans behind (Nat.le_of_lt later))

/-- Before the bound each call brings it nearer. -/
theorem settles_dialogue (still : StillFrom vs bound) (e : Expr) (j : Journal σ) :
    Settles vs bound (fun depth => e.dialogue depth) e j := by
  -- The induction is on the calls left before the bound and not on the tree, which may be larger
  -- once it is entered.
  obtain ⟨left, pending⟩ : ∃ left, bound - j.touches.length ≤ left := ⟨_, Nat.le_refl _⟩
  induction left generalizing e j with
  | zero => exact settles_behind still (by omega)
  | succ left ih =>
      apply settles_node still
      exact fun k node later _ operand _ => ih operand k (by omega)

end

end Expr

section
open Dialogue (Settles StillFrom)
variable {vs : Nat → Editor σ ε} {bound : Nat}

theorem Stmt.settles_dialogue (still : StillFrom vs bound) (s : Stmt) (j : Journal σ) :
    Settles vs bound (fun depth => s.dialogue depth) s j := by
  have root (s : Stmt) (j : Journal σ) :
      Settles vs bound (fun depth => s.askRoot (Expr.dialogue depth)) s j := by
    cases s with
    | expr line value => exact (value.settles_dialogue still j).map
    | enterIf line condition => exact (condition.settles_dialogue still j).map
    | beginBlock | endBlock | leaveIf => exact Dialogue.settles_ended
    | declare line decl =>
        rcases decl with ⟨name, ty, _ | init, id⟩
        · exact Dialogue.settles_ended
        · exact (init.settles_dialogue still j).map
  apply Dialogue.settles_asked still (.enterStmt s)
  intro entered k _ _
  exact (root entered k).andThen fun left _ _ _ => Dialogue.settles_asking still (.leaveStmt left)

end

namespace Editor
open Dialogue (StillFrom)
variable (v : Editor σ ε)

/-- The numbers of the calls that replace their node. -/
def replacing (stmts : List Stmt) (state : σ) : Set Nat :=
  {i | ∃ depth t, (outcome (fun _ => v) depth stmts state).state.touches[i]? = some t ∧
    t.left ≠ t.call.node}

/-- The editor without its replacements from a number on. -/
def stilled (bound i : Nat) : Editor σ ε :=
  answering fun call state =>
    if i < bound then v.answer call state else { v.answer call state with node := call.node }

theorem stilled_still (bound : Nat) : StillFrom (v.stilled bound) bound := by
  intro i behind call state
  rw [stilled, answer_answering, if_neg (Nat.not_lt.mpr behind)]

variable {v} {stmts : List Stmt} {state : σ} {bound : Nat}

theorem outcome_stilled (within : ∀ i ∈ v.replacing stmts state, i < bound) (depth : Nat) :
    outcome (v.stilled bound) depth stmts state = outcome (fun _ => v) depth stmts state := by
  -- Behind the last replacement there is nothing to leave out.
  rw [outcome_dialogue, outcome_dialogue]
  apply Dialogue.run_agrees
  intro i t later found
  rw [stilled, answer_answering]
  by_cases early : i < bound
  · rw [if_pos early]
  · have kept : t.left = t.call.node := by
      by_contra replaced
      rw [← outcome_dialogue] at found
      exact early (within i ⟨depth, t, found, replaced⟩)
    have answered := Dialogue.run_answered _ _ later found
    rw [if_neg early, ← kept, ← answered]

/-- If only finitely many calls replace their node, the walk ends, and if it does not fail its calls
match. -/
theorem walkStmts_ends (v : Editor σ ε) (stmts : List Stmt) (state : σ)
    (few : (v.replacing stmts state).Finite) :
    (∃ visit enough, visit.stopped ≠ some .exhausted ∧
        ∀ depth, enough ≤ depth → v.walkStmts depth stmts state = visit) ∧
      ∀ depth, (v.walkStmts depth stmts state).stopped = none →
        Call.Matched ((outcome (fun _ => v) depth stmts state).state.touches.map Touch.call) := by
  constructor
  · rcases few.bddAbove with ⟨last, above⟩
    have within : ∀ i ∈ v.replacing stmts state, i < last + 1 :=
      fun i member => Nat.lt_succ_of_le (above member)
    have settles :
        Dialogue.Settles (v.stilled (last + 1)) (last + 1)
          (fun depth => Dialogue.ofStmts depth stmts) stmts (.start state) :=
      Dialogue.settles_each fun s _ j _ => s.settles_dialogue (v.stilled_still _) j
    rcases settles with ⟨visit, enough, runs, ends, _⟩
    refine ⟨visit.mapState Journal.state, enough, ends, ?_⟩
    intro depth deep
    rw [← outcome_walk, ← outcome_stilled within, outcome_dialogue, runs depth deep]
  · intro depth ran
    rw [← outcome_walk] at ran
    exact outcome_matched _ depth stmts state ran

/-- Puts a cast around the first pair that is announced, so that its second operand is not
visited. -/
def covering : Editor Bool Nat :=
  answering fun call fresh =>
    match call, fresh with
    | .betweenExpr e, true => .done (e.convert .intToDouble) false
    | call, fresh => .done call.node fresh

def covered : List Stmt :=
  [.expr 1 (.binary ⟨1, none⟩ (.arith .add) (.int ⟨1, none⟩ 1) (.int ⟨1, none⟩ 2))]

theorem covering_ends :
    (covering.replacing covered true).Finite ∧
      (∃ visit enough, visit.stopped ≠ some .exhausted ∧
        ∀ depth, enough ≤ depth → covering.walkStmts depth covered true = visit) ∧
      (covering.walkStmts 2 covered true).stopped = none ∧
      Call.Matched ((outcome (fun _ => covering) 2 covered true).state.touches.map Touch.call) := by
  have few : (covering.replacing covered true).Finite := by
    have calls (depth : Nat) :
        (outcome (fun _ => covering) depth covered true).state.touches.length ≤ 7 := by
      rcases depth with _ | _ | depth <;> exact Nat.le_of_ble_eq_true rfl
    apply (Set.finite_lt_nat 7).subset
    rintro i ⟨depth, t, found, _⟩
    exact Nat.lt_of_lt_of_le (List.getElem?_eq_some_iff.mp found).1 (calls depth)
  have ends := walkStmts_ends covering covered true few
  exact ⟨few, ends.1, rfl, ends.2 2 rfl⟩

end Editor

end StackCompiler
