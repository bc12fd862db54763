import StackCompiler.Proofs.Language.Nodes
import StackCompiler.Proofs.Walk.Order
import StackCompiler.Proofs.Walk.Watching

/-!
The calls of a walk.

A reading walk is nothing but the calls of its hooks, and which calls these are, and in which order,
can be read off the tree (`walkStmts_calls`). To tell more about a walk the calls are noted: each
with the states before and after it, in a record beside the state of the visitor, which does not see
it. Reading and editing walks keep the same record.
-/
namespace StackCompiler

variable {σ τ ε α β : Type}

/-- A hook and the node it is given. -/
inductive Call
  | enterExpr (e : Expr)
  | betweenExpr (e : Expr)
  | leaveExpr (e : Expr)
  | enterStmt (s : Stmt)
  | leaveStmt (s : Stmt)

namespace Expr

-- The calls of a walk of an expression that runs to its end.
mutual
def calls (e : Expr) : List Call :=
  .enterExpr e ::
    ((match e with
      | .bool .. | .int .. | .double .. | .name .. => []
      | .binary _ _ left right => left.calls ++ .betweenExpr e :: right.calls
      | .assign _ _ target value => value.calls ++ .betweenExpr e :: target.calls
      | .unary _ _ operand => operand.calls
      | .cast _ _ operand => operand.calls
      | .call _ callee args => callsOfArgs args ++ callee.calls) ++
    [.leaveExpr e])

def callsOfArgs : List Expr → List Call
  | [] => []
  | arg :: rest => arg.calls ++ callsOfArgs rest
end

theorem callsOfArgs_eq (args : List Expr) : callsOfArgs args = args.flatMap calls := by
  induction args with
  | nil => rfl
  | cons arg rest ih => rw [callsOfArgs, ih, List.flatMap_cons]

end Expr

def Stmt.calls (s : Stmt) : List Call :=
  .enterStmt s :: (s.root?.toList.flatMap Expr.calls ++ [.leaveStmt s])

namespace Visitor

def hook (v : Visitor σ ε) : Call → EStateM ε σ Unit
  | .enterExpr e => v.enterExpr e
  | .betweenExpr e => v.betweenExpr e
  | .leaveExpr e => v.leaveExpr e
  | .enterStmt s => v.enterStmt s
  | .leaveStmt s => v.leaveStmt s

variable (v : Visitor σ ε)

theorem walkExpr_calls (e : Expr) : v.walkExpr e = forM e.calls v.hook := by
  induction e with
  | bool | int | double | name => simp [Expr.calls, hook]
  | binary note op left right first second => simp [Expr.calls, hook, first, second]
  | assign note op target value first second => simp [Expr.calls, hook, first, second]
  | unary note op operand inner => simp [Expr.calls, hook, inner]
  | cast note kind operand inner => simp [Expr.calls, hook, inner]
  | call note callee args target inner =>
      have passed : v.walkArgs args = forM (Expr.callsOfArgs args) v.hook := by
        induction args with
        | nil => rfl
        | cons arg rest ih =>
            rcases List.forall_mem_cons.mp inner with ⟨own, others⟩
            rw [walkArgs_cons, own, ih others, Expr.callsOfArgs, List.forM_append]
      simp [Expr.calls, hook, passed, target]

theorem walkStmt_calls (s : Stmt) : v.walkStmt s = forM s.calls v.hook := by
  unfold walkStmt Stmt.calls
  cases s.root? with
  | none => simp [hook]
  | some root => simp [hook, walkExpr_calls]

theorem walkStmts_calls (stmts : List Stmt) :
    v.walkStmts stmts = forM (stmts.flatMap Stmt.calls) v.hook := by
  induction stmts with
  | nil => rfl
  | cons s rest ih => rw [walkStmts_cons, walkStmt_calls, ih, List.flatMap_cons, List.forM_append]

end Visitor

/-- A call and the states before and after it. -/
structure Moment (σ : Type) where
  call : Call
  before : σ
  after : σ

structure Noted (σ : Type) where
  state : σ
  moments : List (Moment σ)

namespace Noted

def start (state : σ) : Noted σ := ⟨state, []⟩

def note (w : Noted σ) (call : Call) (after : σ) : Noted σ :=
  ⟨after, w.moments ++ [⟨call, w.state, after⟩]⟩

end Noted

/-- Takes a step and notes the call that it answers, whether or not it fails. -/
def noting (call : Call) (step : EStateM ε σ Unit) : EStateM ε (Noted σ) Unit := fun w =>
  match step w.state with
  | .ok _ after => .ok () (w.note call after)
  | .error reason after => .error reason (w.note call after)

def Visitor.noted (v : Visitor σ ε) : Visitor (Noted σ) ε where
  enterExpr e := noting (.enterExpr e) (v.enterExpr e)
  betweenExpr e := noting (.betweenExpr e) (v.betweenExpr e)
  leaveExpr e := noting (.leaveExpr e) (v.leaveExpr e)
  enterStmt s := noting (.enterStmt s) (v.enterStmt s)
  leaveStmt s := noting (.leaveStmt s) (v.leaveStmt s)

def Editor.noted (v : Editor σ ε) : Editor (Noted σ) ε where
  enterExpr e w := (v.enterExpr e w.state).mapState (w.note (.enterExpr e))
  betweenExpr e w := (v.betweenExpr e w.state).mapState (w.note (.betweenExpr e))
  leaveExpr e w := (v.leaveExpr e w.state).mapState (w.note (.leaveExpr e))
  enterStmt s w := (v.enterStmt s w.state).mapState (w.note (.enterStmt s))
  leaveStmt s w := (v.leaveStmt s w.state).mapState (w.note (.leaveStmt s))

def Chained (hook : Call → EStateM ε σ Unit) : σ → List (Moment σ) → σ → Prop
  | s, [], t => s = t
  | s, m :: rest, t =>
      m.before = s ∧ hook m.call s = .ok () m.after ∧ Chained hook m.after rest t

section
variable {hook : Call → EStateM ε σ Unit}

theorem chained_ran {s t : σ} {moments : List (Moment σ)} (chained : Chained hook s moments t) :
    ∀ m ∈ moments, hook m.call m.before = .ok () m.after := by
  induction moments generalizing s with
  | nil => exact List.forall_mem_nil _
  | cons m rest ih =>
      rcases chained with ⟨rfl, ran, others⟩
      exact List.forall_mem_cons.mpr ⟨ran, ih others⟩

theorem forM_noting (calls : List Call) {w : Noted σ} {t : σ}
    (ran : forM calls hook w.state = .ok () t) :
    ∃ moments, forM calls (fun call => noting call (hook call)) w =
      .ok () ⟨t, w.moments ++ moments⟩ ∧
      moments.map Moment.call = calls ∧ Chained hook w.state moments t := by
  induction calls generalizing w with
  | nil =>
      cases ran
      exact ⟨[], by rw [List.append_nil]; rfl, rfl, rfl⟩
  | cons call rest ih =>
      rw [List.forM_cons] at ran ⊢
      cases stepped : hook call w.state with
      | error reason after => simp [bind, EStateM.bind, stepped] at ran
      | ok _ after =>
          simp only [bind, EStateM.bind, stepped] at ran
          rcases ih (w := w.note call after) ran with ⟨moments, runs, calls, chained⟩
          refine ⟨⟨call, w.state, after⟩ :: moments, ?_, congrArg (call :: ·) calls, rfl,
            stepped, chained⟩
          simp only [bind, EStateM.bind, noting, stepped, runs]
          simp [Noted.note]

def momentsOf (hook : Call → EStateM ε σ Unit) : List Call → σ → List (Moment σ)
  | [], _ => []
  | call :: rest, s =>
      match hook call s with
      | .ok _ t => ⟨call, s, t⟩ :: momentsOf hook rest t
      | .error _ t => [⟨call, s, t⟩]

theorem mem_momentsOf_cons {call : Call} {rest : List Call} {s : σ} {m : Moment σ}
    (member : m ∈ momentsOf hook (call :: rest) s) :
    m.call = call ∧ m.before = s ∨ ∃ u, hook call s = .ok () u ∧
      m ∈ momentsOf hook rest u := by
  rw [momentsOf] at member
  cases stepped : hook call s with
  | error reason t =>
      rw [stepped] at member
      cases List.mem_singleton.mp member
      exact .inl ⟨rfl, rfl⟩
  | ok _ t =>
      simp only [stepped] at member
      rcases List.mem_cons.mp member with rfl | later
      · exact .inl ⟨rfl, rfl⟩
      · exact .inr ⟨t, rfl, later⟩

theorem mem_momentsOf_append {calls others : List Call} {s : σ} {m : Moment σ}
    (member : m ∈ momentsOf hook (calls ++ others) s) :
    m ∈ momentsOf hook calls s ∨ ∃ u, forM calls hook s = .ok () u ∧
      m ∈ momentsOf hook others u := by
  induction calls generalizing s with
  | nil => exact .inr ⟨s, rfl, member⟩
  | cons call rest ih =>
      rw [List.cons_append, momentsOf] at member
      rw [momentsOf, List.forM_cons]
      cases stepped : hook call s with
      | error reason t =>
          rw [stepped] at member
          exact .inl member
      | ok _ t =>
          simp only [stepped] at member
          simp only [bind, EStateM.bind, stepped]
          rcases List.mem_cons.mp member with rfl | later
          · exact .inl List.mem_cons_self
          · exact (ih later).imp_left (List.mem_cons_of_mem _)

theorem momentsOf_append {calls others : List Call} {s u : σ} (ran : forM calls hook s = .ok () u) :
    momentsOf hook (calls ++ others) s = momentsOf hook calls s ++ momentsOf hook others u := by
  induction calls generalizing s with
  | nil =>
      cases ran
      rfl
  | cons call rest ih =>
      rw [List.forM_cons] at ran
      rw [List.cons_append, momentsOf, momentsOf]
      cases stepped : hook call s with
      | error reason t => simp [bind, EStateM.bind, stepped] at ran
      | ok _ t =>
          simp only [bind, EStateM.bind, stepped] at ran
          exact congrArg (⟨call, s, t⟩ :: ·) (ih ran)

/-- A noted run adds its moments to the record, whether or not it fails. -/
theorem noting_moments (calls : List Call) (w : Noted σ) :
    (match forM calls (fun call => noting call (hook call)) w with
      | .ok _ u | .error _ u => u.moments) = w.moments ++ momentsOf hook calls w.state := by
  induction calls generalizing w with
  | nil => exact (List.append_nil _).symm
  | cons call rest ih =>
      rw [List.forM_cons, momentsOf]
      simp only [bind, EStateM.bind, noting]
      cases hook call w.state with
      | error reason t => rfl
      | ok _ t =>
          have others := ih (w.note call t)
          rw [Noted.note, List.append_assoc] at others
          exact others

end

namespace Visitor
variable (v : Visitor σ ε)

theorem noted_hook : v.noted.hook = fun call => noting call (v.hook call) := by
  funext call
  cases call <;> rfl

/-- The moments of a walk, the last of which may have failed. -/
def moments (stmts : List Stmt) (s : σ) : List (Moment σ) :=
  match v.noted.walkStmts stmts (.start s) with
  | .ok _ w | .error _ w => w.moments

theorem moments_eq (stmts : List Stmt) (s : σ) :
    v.moments stmts s = momentsOf v.hook (stmts.flatMap Stmt.calls) s := by
  rw [moments, walkStmts_calls, noted_hook]
  exact noting_moments _ (.start s)

/-- The moments of a walk that runs to its end are those of the calls in the tree, each from the
state that the one before it left. -/
theorem moments_ran {stmts : List Stmt} {s t : σ} (ran : v.walkStmts stmts s = .ok () t) :
    (v.moments stmts s).map Moment.call = stmts.flatMap Stmt.calls ∧
      Chained v.hook s (v.moments stmts s) t := by
  rw [walkStmts_calls] at ran
  rcases forM_noting (stmts.flatMap Stmt.calls) (w := .start s) ran
    with ⟨moments, runs, calls, chained⟩
  have all : v.moments stmts s = moments := by
    rw [Visitor.moments, walkStmts_calls, noted_hook, runs]
    rfl
  rw [all]
  exact ⟨calls, chained⟩

end Visitor

end StackCompiler
