import StackCompiler.Proofs.Walk.Calls
import StackCompiler.Proofs.Walk.Runs
import StackCompiler.Walk.Trace

/-!
Reading and editing walks agree.

An editor that leaves every node as it was behaves like a visitor. The two walks are separate
recursions: the editing one looks at a node again behind its first operand to choose the second, and
works under a bound on its depth. A visitor cannot tell which of them it is in: its hooks are called
with the same nodes, in the same order and between the same states, the walk fails where the other
fails, and the tree is left as it was.
-/
namespace StackCompiler

variable {σ ε δ α β : Type}

namespace Visit

def keeping (node : α) : EStateM.Result ε σ Unit → Visit σ ε α
  | .ok _ state => done node state
  | .error reason state => stop node state reason

def Reads (reason : ε → δ) (node : α) (visit : σ → Visit σ δ α) (step : EStateM ε σ Unit) : Prop :=
  ∀ state, visit state = (keeping node (step state)).mapStopped reason

section
variable {reason : ε → δ} {node : α} {visit : σ → Visit σ δ α} {step later : EStateM ε σ Unit}

theorem reads_done (node : α) : Reads (σ := σ) reason node (done node) (pure ()) := fun _ => rfl

theorem Reads.andThen {next : α → σ → Visit σ δ α} (first : Reads reason node visit step)
    (rest : Reads reason node (next node) later) :
    Reads reason node (fun state => (visit state).andThen next) (do step; later) := by
  intro state
  simp only [first state, bind, EStateM.bind]
  cases step state with
  | ok _ reached => exact rest reached
  | error stopped reached => rfl

theorem Reads.map (part : Reads reason node visit step) (whole : α → β) :
    Reads reason (whole node) (fun state => (visit state).map whole) step := by
  intro state
  simp only [part state]
  cases step state <;> rfl

theorem reads_each {f : α → σ → Visit σ δ α} {read : α → EStateM ε σ Unit} {members : List α}
    (one : ∀ member ∈ members, Reads reason member (f member) (read member)) :
    Reads reason members (each f members) (members.forM read) := by
  induction members with
  | nil => exact reads_done []
  | cons member rest ih =>
      rcases List.forall_mem_cons.mp one with ⟨first, others⟩
      intro state
      have steps : (member :: rest).forM read = (do read member; rest.forM read) := rfl
      rw [each_cons, first state, steps]
      simp only [bind, EStateM.bind]
      cases read member state with
      | ok _ reached => exact ((ih others).map (member :: ·)) reached
      | error stopped reached => rfl

end

end Visit

open Visit (Reads keeping)

/-- The editor that does what the visitor does and leaves every node as it was. -/
def Visitor.editing (v : Visitor σ ε) : Editor σ ε where
  enterExpr e state := keeping e (v.enterExpr e state)
  betweenExpr e state := keeping e (v.betweenExpr e state)
  leaveExpr e state := keeping e (v.leaveExpr e state)
  enterStmt s state := keeping s (v.enterStmt s state)
  leaveStmt s state := keeping s (v.leaveStmt s state)

namespace Editor

/-- No hook puts another node in place of the one it is given. -/
structure Preserves (v : Editor σ ε) : Prop where
  enterExpr : ∀ e state, (v.enterExpr e state).node = e
  betweenExpr : ∀ e state, (v.betweenExpr e state).node = e
  leaveExpr : ∀ e state, (v.leaveExpr e state).node = e
  enterStmt : ∀ s state, (v.enterStmt s state).node = s
  leaveStmt : ∀ s state, (v.leaveStmt s state).node = s

def reading (step : σ → Visit σ ε α) : EStateM ε σ Unit := fun state =>
  match step state with
  | ⟨_, after, none⟩ => .ok () after
  | ⟨_, after, some reason⟩ => .error reason after

theorem keeping_reading {step : σ → Visit σ ε α} {node : α} {state : σ}
    (same : (step state).node = node) :
    keeping node (reading step state) = step state := by
  unfold reading
  rcases made : step state with ⟨left, after, _ | reason⟩
  · rw [made] at same
    rw [← same]
    rfl
  · rw [made] at same
    rw [← same]
    rfl

/-- The editors that leave every node as it was are those of the visitors. -/
theorem preserves_iff (v : Editor σ ε) :
    v.Preserves ↔ ∃ reader : Visitor σ ε, v = reader.editing := by
  constructor
  · intro same
    refine ⟨⟨fun e => reading (v.enterExpr e), fun e => reading (v.betweenExpr e), fun e =>
      reading (v.leaveExpr e), fun s => reading (v.enterStmt s), fun s =>
        reading (v.leaveStmt s)⟩, ?_⟩
    rcases v with ⟨enterExpr, betweenExpr, leaveExpr, enterStmt, leaveStmt⟩
    simp only [Visitor.editing, keeping_reading (same.enterExpr _ _),
      keeping_reading (same.betweenExpr _ _),
      keeping_reading (same.leaveExpr _ _), keeping_reading (same.enterStmt _ _),
        keeping_reading (same.leaveStmt _ _)]
  · rintro ⟨reader, rfl⟩
    have kept {α : Type} (node : α) (result : EStateM.Result ε σ Unit) :
        (keeping node result).node = node := by
      cases result <;> rfl
    exact ⟨fun _ _ => kept _ _, fun _ _ => kept _ _, fun _ _ => kept _ _, fun _ _ => kept _ _,
      fun _ _ => kept _ _⟩

end Editor

namespace Visitor
variable (v : Visitor σ ε)

theorem editing_noted : v.editing.noted = v.noted.editing := by
  have same {α : Type} (node : α) (call : Call) (step : EStateM ε σ Unit) (w : Noted σ) :
      (keeping node (step w.state)).mapState (w.note call) = keeping node (noting call step w) := by
    unfold noting
    cases step w.state <;> rfl
  simp only [editing, Editor.noted, noted, same]

section
variable {v} {e : Expr} {first second : EStateM ε σ Unit} {depth : Nat}

theorem editing_single (single : e.isPaired = false)
    (inner : Reads Halt.failed e (e.visitFirst (v.editing.walkExpr depth)) first) :
    Reads Halt.failed e (v.editing.walkExpr (depth + 1) e)
      (do v.enterExpr e; first; v.leaveExpr e) := by
  have entering :
    Reads Halt.failed e (fun state => (v.editing.enterExpr e state).mapStopped Halt.failed)
      (v.enterExpr e) := fun _ => rfl
  refine entering.andThen (inner.andThen fun state => ?_)
  rw [if_neg (by simp [single])]
  rfl

theorem editing_leaf (single : e.isPaired = false)
    (leaf : ∀ (visit : Expr → σ → Visit σ (Halt ε) Expr) state, e.visitFirst visit state =
      .done e state) :
    Reads Halt.failed e (v.editing.walkExpr (depth + 1) e) (do v.enterExpr e; v.leaveExpr e) := by
  have nothing : Reads Halt.failed e (e.visitFirst (v.editing.walkExpr depth)) (pure ()) :=
    fun state => leaf _ state
  exact editing_single single nothing

theorem editing_paired (paired : e.isPaired = true)
    (early : Reads Halt.failed e (e.visitFirst (v.editing.walkExpr depth)) first)
    (late : Reads Halt.failed e (e.visitSecond (v.editing.walkExpr depth)) second) :
    Reads Halt.failed e (v.editing.walkExpr (depth + 1) e)
      (do v.enterExpr e; first; v.betweenExpr e; second; v.leaveExpr e) := by
  have entering :
    Reads Halt.failed e (fun state => (v.editing.enterExpr e state).mapStopped Halt.failed)
      (v.enterExpr e) := fun _ => rfl
  have between :
    Reads Halt.failed e (fun state => (v.editing.betweenExpr e state).mapStopped Halt.failed)
      (v.betweenExpr e) := fun _ => rfl
  have leaving :
    Reads Halt.failed e (fun state => (v.editing.leaveExpr e state).mapStopped Halt.failed)
      (v.leaveExpr e) := fun _ => rfl
  refine entering.andThen (early.andThen fun state => ?_)
  rw [if_pos paired]
  exact between.andThen (late.andThen leaving) state

/-- The arguments are gathered in a list of their own, so a failure among them puts the node
together again. -/
theorem editing_call {note : Note} {callee : Expr} {args : List Expr}
    (passed : Reads Halt.failed args (Visit.each (v.editing.walkExpr depth) args) (v.walkArgs args))
    (behind : Reads Halt.failed callee (v.editing.walkExpr depth callee) (v.walkExpr callee)) :
    Reads Halt.failed (.call note callee args)
      (v.editing.walkExpr (depth + 1) (.call note callee args))
      (v.walkExpr (.call note callee args)) := by
  have operands : Reads Halt.failed (.call note callee args)
      ((Expr.call note callee args).visitFirst (v.editing.walkExpr depth))
      (do v.walkArgs args; v.walkExpr callee) := by
    intro state
    simp only [Expr.visitFirst, passed state, bind, EStateM.bind]
    cases v.walkArgs args state with
    | ok _ reached => exact behind.map (Expr.call note · args) reached
    | error reason reached => rfl
  have whole := editing_single rfl operands
  rw [walkExpr_call]
  simpa only [bind_assoc] using whole

end

theorem editing_expr (e : Expr) {depth : Nat} (enough : e.height ≤ depth) :
    Reads Halt.failed e (v.editing.walkExpr depth e) (v.walkExpr e) := by
  induction depth generalizing e with
  | zero => cases e <;> cases enough
  | succ depth ih =>
      cases e with
      | bool | int | double | name => refine editing_leaf ?_ fun _ _ => ?_ <;> rfl
      | binary note op left right =>
          rw [Expr.height] at enough
          have early := ih left (by omega)
          have late := ih right (by omega)
          exact editing_paired rfl (early.map (Expr.binary note op · right))
            (late.map (Expr.binary note op left ·))
      | assign note op target value =>
          rw [Expr.height] at enough
          have early := ih value (by omega)
          have late := ih target (by omega)
          exact editing_paired rfl (early.map (Expr.assign note op target ·))
            (late.map (Expr.assign note op · value))
      | unary note op operand =>
          rw [Expr.height] at enough
          exact editing_single rfl ((ih operand (by omega)).map (Expr.unary note op ·))
      | cast note kind operand =>
          rw [Expr.height] at enough
          exact editing_single rfl ((ih operand (by omega)).map (Expr.cast note kind ·))
      | call note callee args =>
          rw [Expr.height] at enough
          refine editing_call ?_ (ih callee (by omega))
          rw [walkArgs_eq]
          refine Visit.reads_each fun arg member => ih arg ?_
          have below := Expr.height_within arg member
          omega

theorem editing_stmt (s : Stmt) {depth : Nat} (enough : ∀ root ∈ s.root?, root.height ≤ depth) :
    Reads Halt.failed s (v.editing.walkStmt depth s) (v.walkStmt s) := by
  have entering :
    Reads Halt.failed s (fun state => (v.editing.enterStmt s state).mapStopped Halt.failed)
      (v.enterStmt s) := fun _ => rfl
  have leaving :
    Reads Halt.failed s (fun state => (v.editing.leaveStmt s state).mapStopped Halt.failed)
      (v.leaveStmt s) := fun _ => rfl
  have around {inner : EStateM ε σ Unit}
    (body : Reads Halt.failed s (s.visitRoot (v.editing.walkExpr depth)) inner) :
      Reads Halt.failed s (v.editing.walkStmt depth s) (do v.enterStmt s; inner; v.leaveStmt s) :=
    entering.andThen (body.andThen leaving)
  cases s with
  | expr line value =>
      exact around ((v.editing_expr value (enough value rfl)).map (Stmt.expr line ·))
  | enterIf line condition =>
      exact around ((v.editing_expr condition (enough condition rfl)).map (Stmt.enterIf line ·))
  | beginBlock | endBlock | leaveIf => exact around (Visit.reads_done _)
  | declare line decl =>
      rcases decl with ⟨name, ty, _ | init, id⟩
      · exact around (Visit.reads_done _)
      · exact around ((v.editing_expr init (enough init rfl)).map fun init =>
          Stmt.declare line ⟨name, ty, some init, id⟩)

/-- Both walks call the same hooks with the same nodes between the same states, end alike, and leave
the tree alone. -/
theorem walks_agree (stmts : List Stmt) (state : σ) {depth : Nat}
    (enough : ∀ s ∈ stmts, ∀ root ∈ s.root?, root.height ≤ depth) :
    v.editing.walkStmts depth stmts state =
      (keeping stmts (v.walkStmts stmts state)).mapStopped Halt.failed ∧
      v.editing.noted.walkStmts depth stmts (.start state) =
        (keeping stmts (v.noted.walkStmts stmts (.start state))).mapStopped Halt.failed := by
  have walk (reader : Visitor σ ε) :=
    Visit.reads_each fun s member => reader.editing_stmt s (enough s member)
  have watched := Visit.reads_each fun s member => v.noted.editing_stmt s (enough s member)
  refine ⟨walk v state, ?_⟩
  rw [editing_noted]
  exact watched (.start state)

def chosen : List Stmt :=
  [.beginBlock 1, .enterIf 2 (.assign ⟨2, none⟩ .plain (.name ⟨2, none⟩ "x" none)
    (.binary ⟨2, none⟩ (.arith .add)
      (.call ⟨2, none⟩ (.name ⟨2, none⟩ "f" none) [.int ⟨2, none⟩ 1]) (.int ⟨2, none⟩ 2)))]

theorem chosen_agrees :
    (∀ s ∈ chosen, ∀ root ∈ s.root?, root.height ≤ 4) ∧
      (Trace.reader.editing.walkStmts 4 chosen ⟨some 9, [], #[]⟩ =
          (keeping chosen (Trace.reader.walkStmts chosen ⟨some 9, [], #[]⟩)).mapStopped
            Halt.failed ∧
        Trace.reader.editing.noted.walkStmts 4 chosen (.start ⟨some 9, [], #[]⟩) =
          (keeping chosen (Trace.reader.noted.walkStmts chosen
            (.start ⟨some 9, [], #[]⟩))).mapStopped Halt.failed) ∧
      (Trace.reader.editing.walkStmts 4 chosen ⟨some 9, [], #[]⟩).stopped = some (.failed 9) :=
  have shallow : ∀ s ∈ chosen, ∀ root ∈ s.root?, root.height ≤ 4 := by decide
  ⟨shallow, Trace.reader.walks_agree chosen ⟨some 9, [], #[]⟩ shallow, rfl⟩

end Visitor

end StackCompiler
