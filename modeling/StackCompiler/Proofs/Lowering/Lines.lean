import StackCompiler.Proofs.Lowering.Safety
import StackCompiler.Proofs.Lowering.Literals
import StackCompiler.Proofs.Walk.Calls

/-!
Under which line a hook records what it writes.

The emitter holds one line, and a byte is recorded under the line that it holds when the byte is
written. A step is steady if it leaves that line alone. Every hook of the generator sets the line of
its node and is steady from there on, and so is the prologue of a function with the line of the
function. `betweenExpr` is steady and sets nothing: it writes under the line that it finds.
-/
namespace StackCompiler

/-- The emitter stands at the line, and what was appended is recorded under it. -/
structure Emitter.Adds (line : Nat) (before after : Emitter) : Prop where
  stands : after.line = line
  lines : ∃ count, after.buffer.size = before.buffer.size + count ∧
    after.buffer.lines.toList = before.buffer.lines.toList ++ List.replicate count line

namespace Emitter.Adds
variable {line : Nat} {before middle after : Emitter}

theorem nothing (here : after.line = line) (kept : after.buffer = before.buffer) :
    Adds line before after :=
  ⟨here, 0, by rw [kept, Nat.add_zero], by rw [kept]; exact (List.append_nil _).symm⟩

theorem trans (first : Adds line before middle) (second : Adds line middle after) :
    Adds line before after := by
  rcases first.lines with ⟨early, bytes, lines⟩
  rcases second.lines with ⟨late, more, others⟩
  refine ⟨second.stands, early + late, ?_, ?_⟩
  · rw [more, bytes, Nat.add_assoc]
  · rw [others, lines, List.append_assoc, List.replicate_append_replicate]

theorem recorded (adds : Adds line before after) :
    after.buffer.lines.toList =
      before.buffer.lines.toList ++ List.replicate (after.buffer.size - before.buffer.size)
        line := by
  rcases adds.lines with ⟨count, bytes, lines⟩
  rw [lines, bytes, Nat.add_sub_cancel_left]

end Emitter.Adds

theorem Buffer.write_adds (buffer : Buffer) (instruction : Instruction) (line : Nat) :
    (buffer.write instruction line).size = buffer.size + instruction.encode.length ∧
      (buffer.write instruction line).lines.toList =
        buffer.lines.toList ++ List.replicate instruction.encode.length line := by
  rcases buffer.write_appends instruction line with ⟨bytes, lines⟩
  rw [← bytes_size, ← bytes_size, ← Array.length_toList, bytes, List.length_append,
    Array.length_toList]
  exact ⟨rfl, lines⟩

/-- A step that writes under the line it finds and leaves that line alone, unless it fails. -/
def Steady {σ α : Type} (part : σ → Emitter) (step : EStateM Fault σ α) : Prop :=
  ∀ s result t, step s = .ok result t → Emitter.Adds (part s).line (part s) (part t)

section
variable {σ α β : Type} {part : σ → Emitter}

theorem steady_still {step : EStateM Fault σ α}
    (kept : ∀ s result t, step s = .ok result t → (part t).line = (part s).line ∧
      (part t).buffer = (part s).buffer) :
    Steady part step :=
  fun s result t ran => Emitter.Adds.nothing (kept s result t ran).1 (kept s result t ran).2

theorem steady_pure (answer : α) : Steady part (pure answer) := by
  refine steady_still fun s result t ran => ?_
  cases ran
  exact ⟨rfl, rfl⟩

theorem steady_throw (fault : Fault) : Steady part (throw fault : EStateM Fault σ α) := by
  intro s result t ran
  cases ran

theorem steady_refuse (fault : Fault) (next : α → EStateM Fault σ β) :
    Steady part (throw fault >>= next) := by
  intro s result t ran
  cases ran

theorem steady_bind {step : EStateM Fault σ α} {next : α → EStateM Fault σ β}
    (first : Steady part step) (rest : ∀ answer, Steady part (next answer)) :
    Steady part (step >>= next) := by
  intro s result t ran
  rcases Lowering.bind_ok ran with ⟨middle, u, stepped, later⟩
  have early := first s middle u stepped
  have late := rest middle u result t later
  rw [early.stands] at late
  exact early.trans late

theorem steady_modify {change : σ → σ}
    (kept : ∀ s, (part (change s)).line = (part s).line ∧
      (part (change s)).buffer = (part s).buffer) :
    Steady part (modify change) := by
  refine steady_still fun s result t ran => ?_
  cases ran
  exact kept s

theorem steady_if {p : Prop} [Decidable p] {first second : EStateM Fault σ α}
    (yes : Steady part first) (no : Steady part second) :
    Steady part (if p then first else second) := by
  split
  · exact yes
  · exact no

end

/-! The steps of the emitter and of the generator. -/

namespace Emitter

theorem write_steady (opcode : Opcode) (operands : List UInt16) :
    Steady id (write opcode operands) := by
  intro e result t ran
  rcases e.write_ran ran with ⟨_, rfl⟩
  exact ⟨rfl, _, e.buffer.write_adds ⟨opcode, operands⟩ e.line⟩

theorem writeIndexed_steady (opcode : Opcode) (index : Nat) (table : String) :
    Steady id (writeIndexed opcode index table) := by
  unfold writeIndexed
  exact steady_if (steady_refuse _ _) (write_steady opcode _)

theorem addConstant_steady (constant : Constant) : Steady id (addConstant constant) := by
  refine steady_still ?_
  rintro ⟨buffer, constants, labels, line⟩ result t ran
  cases ran
  exact ⟨rfl, rfl⟩

theorem pushInt_steady (value : Int32) : Steady id (pushInt value) :=
  steady_bind (addConstant_steady _) fun _ => writeIndexed_steady _ _ _

theorem pushDouble_steady (value : Double) : Steady id (pushDouble value) :=
  steady_bind (addConstant_steady _) fun _ => writeIndexed_steady _ _ _

theorem labelling_steady (step : EStateM Fault Labels UInt16) : Steady id (labelling step) := by
  refine steady_still ?_
  rintro ⟨buffer, constants, labels, line⟩ result t ran
  unfold labelling at ran
  simp only at ran
  split at ran
  · cases ran
    exact ⟨rfl, rfl⟩
  · cases ran

theorem jumpAhead_steady : Steady id jumpAhead :=
  steady_bind (labelling_steady _) fun _ => steady_bind (write_steady _ _) fun _ => steady_pure _

theorem land_steady : Steady id land :=
  steady_bind (labelling_steady _) fun _ => steady_bind (write_steady _ _) fun _ => steady_pure _

end Emitter

namespace Lowering
variable {α : Type}

theorem emitting_ok {step : Emit α} {s t : Lowering} {result : α}
    (ran : emitting step s = .ok result t) :
    step s.emitter = .ok result t.emitter := by
  rcases s with ⟨emitter, statics, mode, assigns, calls, values⟩
  unfold emitting at ran
  simp only at ran
  split at ran
  · rename_i stepped
    cases ran
    exact stepped
  · cases ran

theorem emitting_steady {step : Emit α} (steady : Steady id step) :
    Steady emitter (emitting step) :=
  fun s result t ran => steady s.emitter result t.emitter (emitting_ok ran)

theorem emit_steady (opcode : Opcode) : Steady emitter (emit opcode) :=
  emitting_steady (Emitter.write_steady opcode [])

theorem demand_steady (answer : Except Fault α) : Steady emitter (demand answer) := by
  cases answer with
  | ok found => exact steady_pure found
  | error fault => exact steady_throw fault

theorem get_steady : Steady emitter (get : Lower Lowering) := by
  refine steady_still fun s result t ran => ?_
  cases ran
  exact ⟨rfl, rfl⟩

theorem load_steady (ty : Ty) (id : VarId) : Steady emitter (load ty id) :=
  emitting_steady (Emitter.writeIndexed_steady _ _ _)

theorem store_steady (ty : Ty) (id : VarId) : Steady emitter (store ty id) :=
  emitting_steady (Emitter.writeIndexed_steady _ _ _)

theorem closeAssign_steady : Steady emitter closeAssign := by
  refine steady_modify fun s => ?_
  simp only
  split <;> exact ⟨rfl, rfl⟩

theorem recordVariable_steady (name : String) (ty : Ty) (id : VarId) :
    Steady emitter (recordVariable name ty id) :=
  steady_bind (demand_steady _) fun _ => steady_modify fun _ => ⟨rfl, rfl⟩

/-! Hooks. -/

def Marks (line : Nat) (step : Lower α) : Prop :=
  ∀ s result t, step s = .ok result t → Emitter.Adds line s.emitter t.emitter

theorem atLine_marks (line : Nat) {step : Lower α} (steady : Steady emitter step) :
    Marks line (do atLine line; step) := by
  intro s result t ran
  rcases bind_ok ran with ⟨_, u, set, later⟩
  have moved : Emitter.Adds line s.emitter u.emitter := by
    rcases s with ⟨emitter, statics, mode, assigns, calls, values⟩
    cases set
    exact Emitter.Adds.nothing rfl rfl
  -- From here on the line that is found is the one that was set.
  have rest := steady u result t later
  rw [moved.stands] at rest
  exact moved.trans rest

theorem enterExpr_marks (e : Expr) : Marks e.line (enterExpr e) := by
  unfold enterExpr
  refine atLine_marks _ (steady_bind get_steady fun s => steady_if (steady_refuse _ _) ?_)
  cases e with
  | binary | unary | cast | call => exact steady_modify fun _ => ⟨rfl, rfl⟩
  | bool | int | double | name => exact steady_pure _
  | assign note op target value =>
      have opening : Steady emitter openAssign := steady_modify fun _ => ⟨rfl, rfl⟩
      refine steady_if (steady_bind (demand_steady _) fun _ => ?_) opening
      exact steady_bind (load_steady _ _) fun _ => opening

theorem betweenExpr_steady (e : Expr) : Steady emitter (betweenExpr e) := by
  cases e with
  | bool | int | double | name | binary | unary | cast | call => exact steady_pure _
  | assign note op target value =>
      have storing : Steady emitter (setMode .store) := steady_modify fun _ => ⟨rfl, rfl⟩
      cases op with
      | plain => exact storing
      | compound op =>
          exact steady_bind (demand_steady _) fun _ => steady_bind (demand_steady _) fun _ =>
            steady_bind (emit_steady _) fun _ => storing

theorem leaveName_steady (e : Expr) (name : String) (binding : Option Binding) :
    Steady emitter (leaveName e name binding) := by
  unfold leaveName
  refine steady_bind get_steady fun s => ?_
  split
  · exact steady_throw _
  · exact emitting_steady (Emitter.writeIndexed_steady _ _ _)
  · exact steady_bind (demand_steady _) fun _ => load_steady _ _
  · refine steady_bind (demand_steady _) fun _ => steady_bind (store_steady _ _) fun _ =>
      steady_bind get_steady fun _ => steady_if (load_steady _ _) (steady_pure _)
  · exact steady_throw _

theorem leaveMutation_steady (opcode : Opcode) (operand : Expr) :
    Steady emitter (leaveMutation opcode operand) :=
  steady_bind (demand_steady _) fun _ => steady_bind (emit_steady _) fun _ =>
    steady_bind (store_steady _ _) fun _ =>
    load_steady _ _

theorem leaveUnary_steady (e : Expr) (op : UnaryOp) (operand : Expr) :
    Steady emitter (leaveUnary e op operand) := by
  cases op with
  | negate =>
      exact steady_bind (demand_steady _) fun _ => steady_bind (demand_steady _) fun _ =>
        emit_steady _
  | not => exact emit_steady _
  | increment => exact leaveMutation_steady _ _
  | decrement => exact leaveMutation_steady _ _

theorem leaveExpr_marks (e : Expr) : Marks e.line (leaveExpr e) := by
  have closing : Steady emitter closeValue := steady_modify fun _ => ⟨rfl, rfl⟩
  unfold leaveExpr
  refine atLine_marks _ ?_
  cases e with
  | bool note value => exact emitting_steady (Emitter.pushInt_steady _)
  | int note value => exact emitting_steady (Emitter.pushInt_steady _)
  | double note value => exact emitting_steady (Emitter.pushDouble_steady _)
  | name note name binding => exact leaveName_steady _ _ _
  | binary note op left right =>
      exact steady_bind closing fun _ => steady_bind (demand_steady _) fun _ => emit_steady _
  | unary note op operand => exact steady_bind closing fun _ => leaveUnary_steady _ _ _
  | cast note kind operand => exact steady_bind closing fun _ => emit_steady _
  | assign note op target value => exact closeAssign_steady
  | call note callee args =>
      exact steady_bind (steady_modify fun _ => ⟨rfl, rfl⟩) fun _ => emit_steady _

theorem enterStmt_marks (s : Stmt) : Marks s.line (enterStmt s) := by
  unfold enterStmt
  refine atLine_marks _ ?_
  cases s with
  | declare | enterIf => exact steady_modify fun _ => ⟨rfl, rfl⟩
  | expr | beginBlock | endBlock | leaveIf => exact steady_pure _

theorem leaveValue_steady : Steady emitter leaveValue := by
  unfold leaveValue
  refine steady_bind get_steady fun s => ?_
  split
  · exact emit_steady _
  · exact steady_modify fun _ => ⟨rfl, rfl⟩

theorem leaveDeclaration_steady (line : Nat) (decl : Declaration) :
    Steady emitter (leaveDeclaration line decl) := by
  unfold leaveDeclaration
  refine steady_bind (steady_modify fun _ => ⟨rfl, rfl⟩) fun _ => ?_
  split
  · exact steady_throw _
  · have recording := recordVariable_steady decl.name decl.ty
    exact steady_if (steady_bind (store_steady _ _) fun _ => recording _) (recording _)

theorem discard_steady {step : Emit α} (steady : Steady id step) :
    Steady emitter (discard (emitting step)) :=
  steady_bind (emitting_steady steady) fun _ => steady_pure _

theorem leaveStmt_marks (s : Stmt) : Marks s.line (leaveStmt s) := by
  unfold leaveStmt
  refine atLine_marks _ ?_
  cases s with
  | expr => exact leaveValue_steady
  | declare line decl => exact leaveDeclaration_steady line decl
  | beginBlock | endBlock => exact emit_steady _
  | enterIf =>
      exact steady_bind (steady_modify fun _ => ⟨rfl, rfl⟩) fun _ =>
        discard_steady Emitter.jumpAhead_steady
  | leaveIf => exact discard_steady Emitter.land_steady

theorem storeParam_steady (line : Nat) (param : Param) :
    Steady emitter (storeParam line param) := by
  unfold storeParam
  split
  · exact steady_throw _
  · exact steady_bind (store_steady _ _) fun _ => recordVariable_steady _ _ _

theorem prologue_marks (f : Function) : Marks f.line (prologue f) := by
  have stores (params : List Param) : Steady emitter (params.forM (storeParam f.line)) := by
    induction params with
    | nil => exact steady_pure _
    | cons param rest ih => exact steady_bind (storeParam_steady _ _) fun _ => ih
  exact atLine_marks f.line (stores _)

end Lowering
end StackCompiler
