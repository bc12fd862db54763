import StackCompiler.Proofs.Lowering.Counters
import StackCompiler.Proofs.Lowering.Lines
import StackCompiler.Proofs.Machine.Operands

/-!
How high the operand stack is.

Where the kinds of operands are not known, what code does to the height of the stack is: an
instruction takes as many values as its opcode says, and a call takes the reference and as many
arguments as its node has. So the instructions that a call of the generator appended are taken
together with that call. What is asked for below the height at the start of the code is not there.
-/
namespace StackCompiler

namespace Opcode

/-- How many values an instruction takes and gives. What `invoke` takes depends on its node. -/
def exchange (arguments : Option Nat) : Opcode → Option (Nat × Nat)
  | invoke => arguments.map fun count => (count + 1, 1)
  | pop => some (1, 0)
  | pushFunction => some (0, 1)
  | op => some (op.takes.length, op.gives.length)

/-- The height that an instruction brings a stack to; nothing, if it takes more than is there. -/
def lift (arguments : Option Nat) (height : Nat) (op : Opcode) : Option Nat :=
  (op.exchange arguments).bind fun (taken, given) =>
    if taken ≤ height then some (height - taken + given) else none

theorem lift_exchange {arguments : Option Nat} {op : Opcode} {taken given : Nat}
    (exchanged : op.exchange arguments = some (taken, given)) (low : Nat) :
    op.lift arguments (low + taken) = some (low + given) := by
  simp [lift, exchanged]

end Opcode

def Call.arguments? : Call → Option Nat
  | .leaveExpr (.call _ _ args) => some args.length
  | _ => none

namespace Moment

def appended (m : Moment Lowering) : List UInt8 :=
  m.after.emitter.buffer.bytes.toList.drop m.before.emitter.buffer.size

def lift (height : Nat) (m : Moment Lowering) : Option Nat :=
  match disassemble m.appended with
  | .ok stream => (stream.map Placed.opcode).foldlM (Opcode.lift m.call.arguments?) height
  | .error _ => none

end Moment

open Lowering (generator)

/-- Calls of the generator that run from one state to another. All bytes they append are complete
instructions, and from a stack of one height these lead to a stack of another. -/
structure Shifts (calls : List Call) (start final : Lowering) (low high : Nat) : Prop where
  ran : forM calls generator.hook start = .ok () final
  bytes : final.emitter.buffer.bytes.toList =
    start.emitter.buffer.bytes.toList ++
      (momentsOf generator.hook calls start).flatMap Moment.appended
  heights : (momentsOf generator.hook calls start).foldlM Moment.lift low = some high

/-! Steps. -/

/-- Complete instructions were appended that bring a stack from one height to another. -/
def Emitter.Lifts (arguments : Option Nat) (before after : Emitter) (low high : Nat) : Prop :=
  ∃ code, Formed code ∧ after.buffer = before.buffer.writeAll code ∧
    (code.map fun w => w.instruction.opcode).foldlM (Opcode.lift arguments) low = some high

namespace Emitter.Lifts
variable {arguments : Option Nat} {before middle after : Emitter} {low high top : Nat}

theorem nothing (kept : after.buffer = before.buffer) : Lifts arguments before after low low :=
  ⟨[], List.forall_mem_nil _, kept, rfl⟩

theorem trans (first : Lifts arguments before middle low high)
    (second : Lifts arguments middle after high top) :
    Lifts arguments before after low top := by
  rcases first with ⟨code, formed, wrote, lifted⟩
  rcases second with ⟨more, others, added, further⟩
  refine ⟨code ++ more, formed_append.mpr ⟨formed, others⟩, ?_, ?_⟩
  · rw [added, wrote, Buffer.writeAll, Buffer.writeAll, Buffer.writeAll, List.foldl_append]
  · rw [List.map_append, List.foldlM_append, lifted]
    exact further

end Emitter.Lifts

def Lifting {σ α : Type} (part : σ → Emitter) (arguments : Option Nat) (low high : Nat)
    (step : EStateM Fault σ α) :
    Prop :=
  ∀ s result t, step s = .ok result t → Emitter.Lifts arguments (part s) (part t) low high

section
variable {σ α β : Type} {part : σ → Emitter} {arguments : Option Nat} {low high top : Nat}

theorem lifting_kept {step : EStateM Fault σ α}
    (kept : ∀ s result t, step s = .ok result t → (part t).buffer = (part s).buffer) :
    Lifting part arguments low low step :=
  fun s result t ran => Emitter.Lifts.nothing (kept s result t ran)

theorem lifting_pure (answer : α) :
    Lifting part arguments low low (pure answer : EStateM Fault σ α) := by
  refine lifting_kept fun s result t ran => ?_
  cases ran
  rfl

theorem lifting_throw (fault : Fault) :
    Lifting part arguments low high (throw fault : EStateM Fault σ α) := by
  intro s result t ran
  cases ran

theorem lifting_refuse (fault : Fault) (next : α → EStateM Fault σ β) :
    Lifting part arguments low high (throw fault >>= next) := by
  intro s result t ran
  cases ran

theorem lifting_bind {step : EStateM Fault σ α} {next : α → EStateM Fault σ β}
    (first : Lifting part arguments low high step)
    (rest : ∀ answer, Lifting part arguments high top (next answer)) :
    Lifting part arguments low top (step >>= next) := by
  intro s result t ran
  rcases Lowering.bind_ok ran with ⟨middle, u, stepped, later⟩
  exact (first s middle u stepped).trans (rest middle u result t later)

theorem lifting_modify {change : σ → σ} (kept : ∀ s, (part (change s)).buffer = (part s).buffer) :
    Lifting part arguments low low (modify change) := by
  refine lifting_kept fun s result t ran => ?_
  cases ran
  exact kept s

theorem lifting_if {p : Prop} [Decidable p] {first second : EStateM Fault σ α}
    (yes : Lifting part arguments low high first) (no : Lifting part arguments low high second) :
    Lifting part arguments low high (if p then first else second) := by
  split
  · exact yes
  · exact no

end

namespace Emitter
variable {arguments : Option Nat} {low : Nat}

theorem write_lifting {opcode : Opcode} (taken given : Nat)
    (exchanged : opcode.exchange arguments = some (taken, given)) (operands : List UInt16) :
    Lifting id arguments (low + taken) (low + given) (write opcode operands) := by
  intro e result t ran
  rcases e.write_ran ran with ⟨formed, rfl⟩
  refine ⟨[⟨e.line, ⟨opcode, operands⟩⟩], List.forall_mem_singleton.mpr formed, rfl, ?_⟩
  rw [List.map_singleton, List.foldlM_cons, Opcode.lift_exchange exchanged]
  rfl

theorem writeIndexed_lifting {opcode : Opcode} (taken given : Nat)
    (exchanged : opcode.exchange arguments = some (taken, given)) (index : Nat) (table : String) :
    Lifting id arguments (low + taken) (low + given) (writeIndexed opcode index table) := by
  unfold writeIndexed
  exact lifting_if (lifting_refuse _ _) (write_lifting taken given exchanged _)

theorem addConstant_lifting (constant : Constant) :
    Lifting id arguments low low (addConstant constant) := by
  refine lifting_kept ?_
  rintro ⟨buffer, constants, labels, line⟩ result t ran
  cases ran
  rfl

theorem pushInt_lifting (value : Int32) : Lifting id arguments low (low + 1) (pushInt value) :=
  lifting_bind (addConstant_lifting _) fun _ => writeIndexed_lifting 0 1 rfl _ _

theorem pushDouble_lifting (value : Double) :
    Lifting id arguments low (low + 1) (pushDouble value) :=
  lifting_bind (addConstant_lifting _) fun _ => writeIndexed_lifting 0 1 rfl _ _

theorem labelling_lifting (step : EStateM Fault Labels UInt16) :
    Lifting id arguments low low (labelling step) := by
  refine lifting_kept ?_
  rintro ⟨buffer, constants, labels, line⟩ result t ran
  unfold labelling at ran
  simp only at ran
  split at ran
  · cases ran
    rfl
  · cases ran

theorem jumpAhead_lifting : Lifting id arguments (low + 1) low jumpAhead :=
  lifting_bind (labelling_lifting _) fun _ => lifting_bind (write_lifting 1 0 rfl _) fun _ =>
    lifting_pure _

theorem land_lifting : Lifting id arguments low low land :=
  lifting_bind (labelling_lifting _) fun _ => lifting_bind (write_lifting 0 0 rfl _) fun _ =>
    lifting_pure _

end Emitter

/-! Hooks. -/

/-- How many values are on the stack when the value of an assignment is come to. -/
def Expr.preloads : Expr → Nat
  | assign _ (.compound _) _ _ => 1
  | _ => 0

/-- How many values a node finds on the stack when it is left. -/
def Expr.consumes : Expr → Nat
  | binary .. => 2
  | unary .. | cast .. => 1
  | call _ _ args => args.length + 1
  | bool .. | int .. | double .. | name .. | assign .. => 0

namespace Lowering
variable {α β : Type} {arguments : Option Nat} {low high : Nat}

theorem emitting_lifting {step : Emit α} (lifting : Lifting id arguments low high step) :
    Lifting emitter arguments low high (emitting step) :=
  fun s result t ran => lifting s.emitter result t.emitter (emitting_ok ran)

theorem emit_lifting {opcode : Opcode} (taken given : Nat)
    (exchanged : opcode.exchange arguments = some (taken, given)) :
    Lifting emitter arguments (low + taken) (low + given) (emit opcode) :=
  emitting_lifting (Emitter.write_lifting taken given exchanged [])

theorem load_lifting (ty : Ty) (id : VarId) :
    Lifting emitter arguments low (low + 1) (load ty id) :=
  emitting_lifting (Emitter.writeIndexed_lifting 0 1 rfl _ _)

theorem store_lifting (ty : Ty) (id : VarId) :
    Lifting emitter arguments (low + 1) low (store ty id) :=
  emitting_lifting (Emitter.writeIndexed_lifting 1 0 rfl _ _)

theorem atLine_lifting (line : Nat) : Lifting emitter arguments low low (atLine line) :=
  emitting_lifting (lifting_modify fun _ => rfl)

theorem get_lifting : Lifting emitter arguments low low (get : Lower Lowering) := by
  refine lifting_kept fun s result t ran => ?_
  cases ran
  rfl

theorem demand_ok {answer : Except Fault α} {found : α} {s t : Lowering}
    (ran : demand answer s = .ok found t) :
    answer = .ok found ∧ t = s := by
  cases answer with
  | ok other =>
      cases ran
      exact ⟨rfl, rfl⟩
  | error fault => cases ran

theorem demand_lifting {answer : Except Fault α} {next : α → Lower β}
    (rest : ∀ found, answer = .ok found → Lifting emitter arguments low high (next found)) :
    Lifting emitter arguments low high (demand answer >>= next) := by
  cases answer with
  | ok found => exact rest found rfl
  | error fault => exact lifting_refuse _ _

theorem closeAssign_lifting : Lifting emitter arguments low low closeAssign := by
  refine lifting_modify fun s => ?_
  simp only
  split <;> rfl

theorem recordVariable_lifting (name : String) (ty : Ty) (id : VarId) :
    Lifting emitter arguments low low (recordVariable name ty id) :=
  demand_lifting fun _ _ => lifting_modify fun _ => rfl

theorem discard_lifting {step : Emit α} (lifting : Lifting id arguments low high step) :
    Lifting emitter arguments low high (discard (emitting step)) :=
  lifting_bind (emitting_lifting lifting) fun _ => lifting_pure _

theorem enterExpr_lifting (e : Expr) :
    Lifting emitter arguments low (low + e.preloads) (enterExpr e) := by
  unfold enterExpr
  refine lifting_bind (atLine_lifting _) fun _ => lifting_bind get_lifting fun s =>
    lifting_if (lifting_refuse _ _) ?_
  cases e with
  | binary | unary | cast | call => exact lifting_modify fun _ => rfl
  | bool | int | double | name => exact lifting_pure _
  | assign note op target value =>
      have opening (height : Nat) : Lifting emitter arguments height height openAssign :=
        lifting_modify fun _ => rfl
      cases op with
      | plain => exact opening _
      | compound op =>
          exact demand_lifting fun _ _ => lifting_bind (load_lifting _ _) fun _ => opening _

theorem betweenExpr_lifting (e : Expr) :
    Lifting emitter arguments (low + e.preloads + 1) (low + 1) (betweenExpr e) := by
  cases e with
  | bool | int | double | name | binary | unary | cast | call => exact lifting_pure _
  | assign note op target value =>
      have storing (height : Nat) : Lifting emitter arguments height height (setMode .store) :=
        lifting_modify fun _ => rfl
      cases op with
      | plain => exact storing _
      | compound op =>
          refine demand_lifting fun ty _ => demand_lifting fun opcode choice => ?_
          rw [arith_opcode_ok choice]
          exact lifting_bind (emit_lifting 2 1 rfl) fun _ => storing _

theorem binaryOpcode_exchange {op : BinaryOp} {left whole : Expr} {opcode : Opcode}
    (choice : binaryOpcode op left whole = .ok opcode) :
    opcode.exchange arguments = some (2, 1) := by
  cases op with
  | arith op =>
      rcases typed_bind_ok choice with ⟨ty, _, known⟩
      rw [arith_opcode_ok known]
      rfl
  | compare op =>
      rcases typed_bind_ok choice with ⟨ty, _, known⟩
      rw [comparison_opcode_ok known]
      rfl
  | logic op =>
      cases choice
      rfl

theorem leaveMutation_lifting {opcode : Opcode}
    (exchanged : opcode.exchange arguments = some (1, 1))
    (operand : Expr) :
    Lifting emitter arguments (low + 1) (low + 1) (leaveMutation opcode operand) :=
  demand_lifting fun _ _ => lifting_bind (emit_lifting 1 1 exchanged) fun _ =>
    lifting_bind (store_lifting _ _) fun _ => load_lifting _ _

theorem leaveUnary_lifting (e : Expr) (op : UnaryOp) (operand : Expr) :
    Lifting emitter arguments (low + 1) (low + 1) (leaveUnary e op operand) := by
  cases op with
  | negate =>
      refine demand_lifting fun ty _ => demand_lifting fun opcode choice => ?_
      rw [negate_opcode_ok choice]
      exact emit_lifting 1 1 rfl
  | not => exact emit_lifting 1 1 rfl
  | increment => exact leaveMutation_lifting rfl _
  | decrement => exact leaveMutation_lifting rfl _

/-- What a node finds on the stack it takes for its value. Names and assignments, which depend on
the mode, are another matter. -/
theorem leaveExpr_lifting {e : Expr} (unnamed : e.isName = false) (computed : e.isAssign = false) :
    Lifting emitter (Call.leaveExpr e).arguments? (low + e.consumes) (low + 1) (leaveExpr e) := by
  have closing (height : Nat) :
      Lifting emitter (Call.leaveExpr e).arguments? height height closeValue :=
    lifting_modify fun _ => rfl
  unfold leaveExpr
  refine lifting_bind (atLine_lifting _) fun _ => ?_
  cases e with
  | bool note value => exact emitting_lifting (Emitter.pushInt_lifting _)
  | int note value => exact emitting_lifting (Emitter.pushInt_lifting _)
  | double note value => exact emitting_lifting (Emitter.pushDouble_lifting _)
  | name => cases unnamed
  | assign => cases computed
  | binary note op left right =>
      exact lifting_bind (closing _) fun _ => demand_lifting fun opcode choice =>
        emit_lifting 2 1 (binaryOpcode_exchange choice)
  | unary note op operand => exact lifting_bind (closing _) fun _ => leaveUnary_lifting _ _ _
  | cast note kind operand => exact lifting_bind (closing _) fun _ => emit_lifting 1 1 rfl
  | call note callee args =>
      exact lifting_bind (lifting_modify fun _ => rfl) fun _ => emit_lifting (args.length + 1) 1 rfl

theorem leaveAssign_lifting (note : Note) (op : AssignOp) (target value : Expr) :
    Lifting emitter arguments low low (leaveExpr (.assign note op target value)) :=
  lifting_bind (atLine_lifting _) fun _ => closeAssign_lifting

theorem leaveName_loads {e : Expr} {name : String} {binding : Option Binding} {s t : Lowering}
    (loading : s.mode = .load) (ran : leaveName e name binding s = .ok () t) :
    Emitter.Lifts arguments s.emitter t.emitter low (low + 1) := by
  unfold leaveName at ran
  rcases bind_ok ran with ⟨found, u, got, later⟩
  cases got
  rw [loading] at later
  match binding with
  | none => cases later
  | some (.function id) =>
      exact emitting_lifting (Emitter.writeIndexed_lifting 0 1 rfl _ _) s () t later
  | some (.variable id) => exact demand_lifting (fun _ _ => load_lifting _ _) s () t later

theorem leaveName_stores {e : Expr} {name : String} {binding : Option Binding} {s t : Lowering}
    (storing : s.mode = .store) (ran : leaveName e name binding s = .ok () t) :
    Emitter.Lifts arguments s.emitter t.emitter (low + 1) (low + s.keepsValue.toNat) := by
  unfold leaveName at ran
  rcases bind_ok ran with ⟨found, u, got, later⟩
  cases got
  rw [storing] at later
  match binding with
  | none | some (.function id) => cases later
  | some (.variable id) =>
      rcases bind_ok later with ⟨ty, v, known, rest⟩
      rcases demand_ok known with ⟨_, rfl⟩
      rcases bind_ok rest with ⟨_, w, stored, last⟩
      rcases bind_ok last with ⟨_, x, got, kept⟩
      cases got
      have same : w.keepsValue = v.keepsValue := keepsValue_congr (still_emitting _ v () w stored)
      refine (store_lifting ty id v () w stored).trans ?_
      rw [same] at kept
      cases keeps : v.keepsValue with
      | true =>
          rw [keeps] at kept
          exact load_lifting ty id w () t kept
      | false =>
          rw [keeps] at kept
          exact lifting_pure () w () t kept

theorem atLine_ok {line : Nat} {s u : Lowering} (set : atLine line s = .ok () u) :
    u.mode = s.mode ∧ u.count = s.count ∧ u.emitter.buffer = s.emitter.buffer := by
  rcases s with ⟨emitter, statics, mode, assigns, calls, values⟩
  cases set
  exact ⟨rfl, rfl, rfl⟩

section
variable {note : Note} {name : String} {binding : Option Binding} {s t : Lowering}

theorem leaveExpr_loads (loading : s.mode = .load)
    (ran : leaveExpr (.name note name binding) s = .ok () t) :
    Emitter.Lifts arguments s.emitter t.emitter low (low + 1) := by
  rcases bind_ok ran with ⟨_, u, set, later⟩
  rcases atLine_ok set with ⟨mode, _, kept⟩
  exact (Emitter.Lifts.nothing kept).trans (leaveName_loads (mode.trans loading) later)

theorem leaveExpr_stores (storing : s.mode = .store)
    (ran : leaveExpr (.name note name binding) s = .ok () t) :
    Emitter.Lifts arguments s.emitter t.emitter (low + 1) (low + s.keepsValue.toNat) := by
  rcases bind_ok ran with ⟨_, u, set, later⟩
  rcases atLine_ok set with ⟨mode, counts, kept⟩
  rw [← keepsValue_congr counts]
  exact (Emitter.Lifts.nothing kept).trans (leaveName_stores (mode.trans storing) later)

end

theorem enterStmt_lifting (stmt : Stmt) : Lifting emitter arguments low low (enterStmt stmt) := by
  unfold enterStmt
  refine lifting_bind (atLine_lifting _) fun _ => ?_
  cases stmt with
  | declare | enterIf => exact lifting_modify fun _ => rfl
  | expr | beginBlock | endBlock | leaveIf => exact lifting_pure _

theorem leaveDeclaration_lifting (line : Nat) (decl : Declaration) :
    Lifting emitter arguments (low + decl.init.isSome.toNat) low (leaveDeclaration line decl) := by
  unfold leaveDeclaration
  refine lifting_bind (lifting_modify fun _ => rfl) fun _ => ?_
  split
  · exact lifting_throw _
  · have recording (id : VarId) :
        Lifting emitter arguments low low (recordVariable decl.name decl.ty id) :=
      recordVariable_lifting _ _ _
    cases decl.init with
    | none => exact recording _
    | some init => exact lifting_bind (store_lifting _ _) fun _ => recording _

theorem leaveStmt_lifting {stmt : Stmt} (lasting : (Call.leaveStmt stmt).resets = false) :
    Lifting emitter arguments (low + stmt.root?.isSome.toNat) low (leaveStmt stmt) := by
  unfold leaveStmt
  refine lifting_bind (atLine_lifting _) fun _ => ?_
  cases stmt with
  | expr => cases lasting
  | declare line decl => exact leaveDeclaration_lifting line decl
  | beginBlock | endBlock => exact emit_lifting 0 0 rfl
  | enterIf =>
      exact lifting_bind (lifting_modify fun _ => rfl) fun _ =>
        discard_lifting Emitter.jumpAhead_lifting
  | leaveIf => exact discard_lifting Emitter.land_lifting

/-- The value of a statement is dropped, unless it is an assignment that has not kept it. -/
theorem leaveValue_lifts {line : Nat} {value : Expr} {s t : Lowering}
    (ran : leaveStmt (.expr line value) s = .ok () t) :
    Emitter.Lifts arguments s.emitter t.emitter (low + (decide (s.mode = .load)).toNat) low := by
  rcases bind_ok ran with ⟨_, u, set, later⟩
  rcases atLine_ok set with ⟨mode, _, kept⟩
  refine (Emitter.Lifts.nothing kept).trans ?_
  rcases bind_ok later with ⟨found, v, got, last⟩
  cases got
  rw [← mode]
  cases still : u.mode with
  | load =>
      rw [still] at last
      exact emit_lifting 1 0 rfl u () t last
  | store =>
      rw [still] at last
      cases last
      exact Emitter.Lifts.nothing rfl

end Lowering

/-! Runs. -/

namespace Shifts
variable {calls others : List Call} {s t u : Lowering} {low high top : Nat}

theorem nothing : Shifts [] s s low low := ⟨rfl, (List.append_nil _).symm, rfl⟩

theorem append (first : Shifts calls s u low high) (rest : Shifts others u t high top) :
    Shifts (calls ++ others) s t low top where
  ran := by
    rw [List.forM_append]
    exact (Lowering.bind_run first.ran).trans rest.ran
  bytes := by
    rw [momentsOf_append first.ran, List.flatMap_append, rest.bytes, first.bytes, List.append_assoc]
  heights := by
    rw [momentsOf_append first.ran, List.foldlM_append, first.heights]
    exact rest.heights

theorem single {call : Call} (ran : generator.hook call s = .ok () t)
    (lifts : Emitter.Lifts call.arguments? s.emitter t.emitter low high) :
    Shifts [call] s t low high := by
  have moments : momentsOf generator.hook [call] s = [⟨call, s, t⟩] := by
    rw [momentsOf, ran]
    rfl
  rcases lifts with ⟨code, formed, wrote, lifted⟩
  have bytes : t.emitter.buffer.bytes.toList =
      s.emitter.buffer.bytes.toList ++ (instructionsOf code).flatMap Instruction.encode := by
    have both := congrArg Chunk.bytes (s.emitter.buffer.finish_writeAll code)
    rw [← wrote] at both
    rw [← Chunk.of_bytes, ← Array.toList_append]
    exact congrArg Array.toList both
  have appended :
      Moment.appended ⟨call, s, t⟩ = (instructionsOf code).flatMap Instruction.encode := by
    have size : s.emitter.buffer.size = s.emitter.buffer.bytes.toList.length :=
      s.emitter.buffer.bytes_size.symm.trans Array.length_toList.symm
    rw [Moment.appended, bytes, size]
    exact List.drop_left
  refine ⟨?_, ?_, ?_⟩
  · rw [List.forM_cons, Lowering.bind_run ran]
    rfl
  · rw [moments, List.flatMap_singleton, appended, bytes]
  · have read : (placedFrom 0 (instructionsOf code)).map Placed.opcode = code.map fun w =>
      w.instruction.opcode := by
      have opcodes :=
        congrArg (List.map Instruction.opcode) (placedFrom_instructions 0 (instructionsOf code))
      rw [List.map_map] at opcodes
      exact opcodes.trans List.map_map
    rw [moments, List.foldlM_cons, Moment.lift, appended,
      disassemble_encoded _ (instructionsOf_formed formed)]
    simp only [read, lifted]
    rfl

end Shifts

end StackCompiler
