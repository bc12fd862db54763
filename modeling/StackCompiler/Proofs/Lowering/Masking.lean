import StackCompiler.Lowering.Program
import StackCompiler.Proofs.Language.Masking
import StackCompiler.Proofs.Lowering.Effect
import StackCompiler.Proofs.Walk.Order

/-!
Code generation does not look at what is masked.

Lines go into the line table, the values of literals into the pool, names into the tables and into
faults, and nothing is decided by any of them. So every step of code generation commutes with
masking: on the masked state it gives the same answer, or the same fault masked, and the state it
leaves is the masked one.
-/
namespace StackCompiler

section
variable (rename : String → String)

def Fault.masked : Fault → Fault
  | unresolvedType node _ => unresolvedType node 1
  | unresolvedBinding name _ => unresolvedBinding (rename name) 1
  | unknownOperator symbol ty _ => unknownOperator symbol ty 1
  | invalidTarget _ => invalidTarget 1
  | fault => fault

def Constant.masked : Constant → Constant
  | int _ => int 0
  | double _ => double ⟨0⟩

def ConstantPool.masked (pool : ConstantPool) : ConstantPool :=
  ⟨pool.entries.map Constant.masked⟩

def Chunk.masked (chunk : Chunk) : Chunk := ⟨chunk.bytes, chunk.lines.map fun _ => 1⟩

def maskedBefore (cursor : Nat) (lines : Array Nat) : Array Nat :=
  lines.mapIdx fun place line => if place < cursor then 1 else line

/-- Only the lines of written bytes are masked: padding looks the same in every buffer. -/
def Buffer.masked (buffer : Buffer) : Buffer :=
  { buffer with
    lineOf := maskedBefore buffer.cursor buffer.lineOf
    aligned := by rw [maskedBefore, Array.size_mapIdx, buffer.aligned] }

def Emitter.masked (emitter : Emitter) : Emitter :=
  ⟨emitter.buffer.masked, emitter.constants.masked, emitter.labels, 1⟩

def StaticVariable.renamed (entry : StaticVariable) : StaticVariable :=
  ⟨rename entry.name, entry.ty, entry.slot⟩

def CompiledFunction.masked (f : CompiledFunction) : CompiledFunction :=
  ⟨rename f.name, f.returns, f.params, f.slot, f.code.map Chunk.masked⟩

def Executable.masked (exe : Executable) : Executable :=
  ⟨exe.code.masked, exe.constants.masked, exe.statics.map (StaticVariable.renamed rename),
    exe.functions.map (CompiledFunction.masked rename)⟩

def Lowering.masked (s : Lowering) : Lowering :=
  ⟨s.emitter.masked, s.statics.map (StaticVariable.renamed rename), s.mode, s.assigns,
    s.calls, s.values⟩

def Shared.masked (shared : Shared) : Shared :=
  ⟨shared.constants.masked, shared.labels, shared.statics.map (StaticVariable.renamed rename)⟩

def concealed {α : Type} (mask : α → α) : Except Fault α → Except Fault α
  | .ok answer => .ok (mask answer)
  | .error fault => .error (fault.masked rename)

/-- On a masked state the one step does what the other does on the state itself. -/
def Commutes {σ α : Type} (mask : σ → σ) (veiled step : EStateM Fault σ α) : Prop :=
  ∀ s, veiled (mask s) =
    match step s with
    | .ok result t => .ok result (mask t)
    | .error fault t => .error (fault.masked rename) (mask t)

end

section
variable {rename : String → String} {σ α β : Type} {mask : σ → σ}

theorem concealed_bind {first : α → α} {second : β → β} {veiled answer : Except Fault α}
    {after next : α → Except Fault β} (same : veiled = concealed rename first answer)
    (rest : ∀ found, after (first found) = concealed rename second (next found)) :
    veiled.bind after = concealed rename second (answer.bind next) := by
  rw [same]
  cases answer with
  | ok found => exact rest found
  | error fault => rfl

theorem concealed_foldlM {γ : Type} {first : α → α} {image : γ → γ}
    {after next : α → γ → Except Fault α}
    (one : ∀ found member, after (first found) (image member) =
      concealed rename first (next found member))
    (members : List γ) (found : α) :
    (members.map image).foldlM after (first found) =
      concealed rename first (members.foldlM next found) := by
  induction members generalizing found with
  | nil => rfl
  | cons member rest ih =>
      rw [List.map_cons, List.foldlM_cons, List.foldlM_cons]
      exact concealed_bind (one found member) ih

theorem commutes_pure (result : α) : Commutes rename mask (pure result) (pure result) :=
  fun _ => rfl

theorem commutes_throw {veiled fault : Fault} (same : veiled = fault.masked rename) :
    Commutes rename mask (throw veiled : EStateM Fault σ α) (throw fault) := fun _ => by
  rw [same]
  rfl

theorem commutes_bind {veiled step : EStateM Fault σ α} {next after : α → EStateM Fault σ β}
    (first : Commutes rename mask veiled step)
    (rest : ∀ result, Commutes rename mask (after result) (next result)) :
    Commutes rename mask (veiled >>= after) (step >>= next) := by
  intro s
  have here := first s
  simp only [bind, EStateM.bind, here]
  cases step s with
  | ok result t => exact rest result t
  | error fault t => rfl

theorem commutes_modify {veiled change : σ → σ} (same : ∀ s, veiled (mask s) = mask (change s)) :
    Commutes rename mask (modify veiled) (modify change) := fun s => by
  simp only [modify_run, same]

theorem commutes_get {after next : σ → EStateM Fault σ α}
    (rest : ∀ s, Commutes rename mask (after (mask s)) (next s)) :
    Commutes rename mask (get >>= after) (get >>= next) := fun s => rest s s

theorem commutes_if {condition : Prop} [Decidable condition]
    {first other second another : EStateM Fault σ α}
    (yes : Commutes rename mask first second) (no : Commutes rename mask other another) :
    Commutes rename mask (if condition then first else other)
      (if condition then second else another) := by
  by_cases holds : condition
  · simpa only [holds, ↓reduceIte] using yes
  · simpa only [holds, ↓reduceIte] using no

theorem commutes_unless {condition : Prop} [Decidable condition] {veiled fault : Fault}
    {after next : EStateM Fault σ α} (rest : Commutes rename mask after next)
    (same : veiled = fault.masked rename) :
    Commutes rename mask (if condition then throw veiled >>= fun _ : Unit => after else after)
      (if condition then throw fault >>= fun _ : Unit => next else next) :=
  commutes_if (commutes_bind (commutes_throw same) fun _ => rest) rest

theorem commutes_discard {veiled step : EStateM Fault σ α}
    (commutes : Commutes rename mask veiled step) :
    Commutes rename mask (discard veiled) (discard step) := by
  have unanswered : ∀ any : EStateM Fault σ α, discard any = any >>= fun _ => pure () :=
    fun any => by
    funext s
    show EStateM.map (fun _ => ()) any s = EStateM.bind any (fun _ => pure ()) s
    simp only [EStateM.map, EStateM.bind]
    cases any s <;> rfl
  rw [unanswered, unanswered]
  exact commutes_bind commutes fun _ => commutes_pure ()

theorem commutes_forM {γ : Type} {step veiled : γ → EStateM Fault σ Unit} {image : γ → γ}
    (members : List γ)
    (one : ∀ member ∈ members, Commutes rename mask (veiled (image member)) (step member)) :
    Commutes rename mask ((members.map image).forM veiled) (members.forM step) := by
  induction members with
  | nil => exact commutes_pure ()
  | cons member rest ih =>
      rcases List.forall_mem_cons.mp one with ⟨first, others⟩
      exact commutes_bind first fun _ => ih others

end

/-! Writing. -/

namespace Emitter
variable {rename : String → String}

theorem maskedBefore_append {cursor : Nat} {lines : Array Nat} (written : cursor ≤ lines.size)
    (room : Array Nat) :
    maskedBefore cursor (lines ++ room) = maskedBefore cursor lines ++ room := by
  rw [maskedBefore, Array.mapIdx_append]
  refine congrArg (maskedBefore cursor lines ++ ·) ?_
  ext place
  · exact Array.size_mapIdx
  · rw [Array.getElem_mapIdx, if_neg (Nat.not_lt.mpr (Nat.le_trans written (Nat.le_add_left _ _)))]

theorem maskedBefore_set {cursor : Nat} {lines : Array Nat} (room : cursor < lines.size)
    (line : Nat) :
    maskedBefore (cursor + 1) (lines.set cursor line) =
      (maskedBefore cursor lines).set cursor 1 (by rwa [maskedBefore, Array.size_mapIdx]) := by
  ext place
  · simp only [maskedBefore, Array.size_mapIdx, Array.size_set]
  · simp only [maskedBefore, Array.getElem_mapIdx, Array.getElem_set]
    by_cases here : cursor = place
    · rw [if_pos here, if_pos (Nat.lt_succ_of_le (Nat.le_of_eq here.symm)), if_pos here]
    · have before : place < cursor + 1 ↔ place < cursor := by omega
      simp only [here, before, ↓reduceIte]

theorem maskedBefore_take (cursor : Nat) (lines : Array Nat) :
    (maskedBefore cursor lines).take cursor = (lines.take cursor).map fun _ => 1 := by
  ext place short _
  · simp [maskedBefore]
  · have before : place < min cursor lines.size := by simpa [maskedBefore] using short
    simp [maskedBefore, (Nat.lt_min.mp before).1]

theorem reserve_masked (buffer : Buffer) (more : Nat) :
    buffer.masked.reserve more = (buffer.reserve more).masked := by
  have written : buffer.cursor ≤ buffer.lineOf.size := buffer.aligned ▸ buffer.within
  have capacity : buffer.masked.capacity = buffer.capacity := rfl
  have cursor : buffer.masked.cursor = buffer.cursor := rfl
  unfold Buffer.reserve
  simp only [capacity, cursor]
  split
  · rfl
  · exact Buffer.ext rfl (maskedBefore_append written _).symm rfl rfl rfl

theorem put?_masked (buffer : Buffer) (byte : UInt8) (line : Nat) :
    buffer.masked.put? byte 1 = (buffer.put? byte line).map Buffer.masked := by
  unfold Buffer.put?
  split
  · rename_i room
    rw [dif_pos (show buffer.cursor < buffer.code.size from room)]
    have lined : buffer.cursor < buffer.lineOf.size := buffer.aligned ▸ room
    exact congrArg some (Buffer.ext rfl (maskedBefore_set lined line).symm rfl rfl rfl)
  · rename_i full
    rw [dif_neg (show ¬ buffer.cursor < buffer.code.size from full)]
    rfl

theorem fill?_masked (buffer : Buffer) (bytes : List UInt8) (line : Nat) :
    buffer.masked.fill? bytes 1 = (buffer.fill? bytes line).map Buffer.masked := by
  induction bytes generalizing buffer with
  | nil => rfl
  | cons byte rest ih =>
      rw [Buffer.fill?, Buffer.fill?, List.foldlM_cons, List.foldlM_cons,
        put?_masked buffer byte line]
      cases buffer.put? byte line with
      | none => rfl
      | some after => exact ih after

theorem write_masked (buffer : Buffer) (instruction : Instruction) (line : Nat) :
    buffer.masked.write instruction 1 = (buffer.write instruction line).masked := by
  have filled := buffer.masked.write_filled instruction 1
  rw [reserve_masked, fill?_masked _ _ line, buffer.write_filled] at filled
  exact (Option.some.inj filled).symm

theorem empty_masked (capacity step : Nat) :
    (Buffer.empty capacity step).masked = .empty capacity step := by
  refine Buffer.ext rfl ?_ rfl rfl rfl
  ext place <;> simp [Buffer.masked, maskedBefore, Buffer.empty]

theorem finish_masked (buffer : Buffer) : buffer.masked.finish = buffer.finish.masked :=
  congrArg (Chunk.mk buffer.bytes) (maskedBefore_take buffer.cursor buffer.lineOf)

theorem atLine_commutes (line : Nat) : Commutes rename masked (atLine 1) (atLine line) :=
  commutes_modify fun _ => rfl

theorem write_commutes (opcode : Opcode) (operands : List UInt16) :
    Commutes rename masked (write opcode operands) (write opcode operands) := by
  intro e
  by_cases formed : operands.length = opcode.arity
  · rw [write_run _ formed, write_run _ formed]
    simp [wrote, masked, Buffer.writeAll, write_masked e.buffer _ e.line]
  · rw [write_refused _ formed, write_refused _ formed]
    rfl

theorem writeIndexed_commutes (opcode : Opcode) (index : Nat) (table : String) :
    Commutes rename masked (writeIndexed opcode index table) (writeIndexed opcode index table) :=
  commutes_unless (write_commutes opcode _) rfl

theorem addConstant_commutes {constant other : Constant} (same : other.masked = constant.masked)
    (alone : other.masked = other) :
    Commutes rename masked (addConstant other) (addConstant constant) := by
  intro ⟨buffer, constants, labels, line⟩
  have entry : other = constant.masked := alone.symm.trans same
  simp [addConstant, modifyGet_run, ConstantPool.push, ConstantPool.size, masked,
    ConstantPool.masked, entry]

theorem pushInt_commutes (value : Int32) : Commutes rename masked (pushInt 0) (pushInt value) :=
  commutes_bind (addConstant_commutes rfl rfl) fun index => writeIndexed_commutes _ index _

theorem pushDouble_commutes (value : Double) :
    Commutes rename masked (pushDouble ⟨0⟩) (pushDouble value) :=
  commutes_bind (addConstant_commutes rfl rfl) fun index => writeIndexed_commutes _ index _

theorem issue_commutes : Commutes rename id Labels.issue Labels.issue := by
  intro ⟨issued, pending, limit⟩
  by_cases full : limit ≤ pending.size
  · simp only [id, Labels.issue, full, ↓reduceIte, Fault.masked]
  · by_cases wide : UInt16.size ≤ issued <;>
      simp only [id, Labels.issue, full, wide, ↓reduceIte, Fault.masked]

theorem resolve_commutes : Commutes rename id Labels.resolve Labels.resolve := by
  intro ⟨issued, pending, limit⟩
  simp only [id, Labels.resolve]
  cases pending.back? <;> rfl

theorem labelling_commutes {veiled step : EStateM Fault Labels UInt16}
    (commutes : Commutes rename id veiled step) :
    Commutes rename masked (labelling veiled) (labelling step) := by
  intro ⟨buffer, constants, labels, line⟩
  have here := commutes labels
  rw [id] at here
  simp only [labelling, masked, here]
  cases step labels <;> rfl

theorem jumpAhead_commutes : Commutes rename masked jumpAhead jumpAhead :=
  commutes_bind (labelling_commutes issue_commutes) fun id =>
    commutes_bind (write_commutes _ _) fun _ => commutes_pure id

theorem land_commutes : Commutes rename masked land land :=
  commutes_bind (labelling_commutes resolve_commutes) fun id =>
    commutes_bind (write_commutes _ _) fun _ => commutes_pure id

end Emitter

/-! Answers. -/

section
variable (rename : String → String) (e : Expr) (line : Nat)

theorem typed_masked : (e.masked rename).typed = concealed rename id e.typed := by
  simp only [Expr.typed, Expr.masked_ty, Expr.masked_noun, Expr.masked_line]
  cases e.ty <;> rfl

theorem variableTarget_masked :
    (e.masked rename).variableTarget = concealed rename id e.variableTarget := by
  cases e with
  | name note identifier binding =>
      rcases binding with _ | id | id
      · rfl
      · have typed := typed_masked rename (.name note identifier (some (.variable id)))
        simp only [Expr.masked] at typed
        simp only [Expr.variableTarget, Expr.masked, typed]
        cases (Expr.name note identifier (some (.variable id))).typed <;> rfl
      · rfl
  | _ => rfl

theorem arith_masked (op : Arith) (ty : Ty) :
    op.opcode ty 1 = concealed rename id (op.opcode ty line) := by
  simp only [Arith.opcode]
  split <;> rfl

theorem comparison_masked (op : Comparison) (ty : Ty) :
    op.opcode ty 1 = concealed rename id (op.opcode ty line) := by
  simp only [Comparison.opcode]
  split <;> rfl

theorem negate_masked (ty : Ty) :
    negateOpcode ty 1 = concealed rename id (negateOpcode ty line) := by
  simp only [negateOpcode]
  split <;> rfl

theorem slot_masked (index : Nat) (table : String) :
    Lowering.slotOf index table = concealed rename id (Lowering.slotOf index table) := by
  simp only [Lowering.slotOf]
  split <;> rfl

theorem binaryOpcode_masked (op : BinaryOp) (left : Expr) :
    Lowering.binaryOpcode op (left.masked rename) (e.masked rename) =
      concealed rename id (Lowering.binaryOpcode op left e) := by
  cases op with
  | arith op =>
      rw [Lowering.binaryOpcode, Expr.masked_line]
      exact concealed_bind (typed_masked rename e) fun ty => arith_masked rename e.line op ty
  | compare op =>
      rw [Lowering.binaryOpcode, Expr.masked_line]
      exact concealed_bind (typed_masked rename left) fun ty =>
        comparison_masked rename e.line op ty
  | logic op => rfl

end

/-! Hooks. -/

namespace Lowering
variable {rename : String → String} {α : Type}

theorem emitting_commutes {veiled step : Emit α}
    (commutes : Commutes rename Emitter.masked veiled step) :
    Commutes rename (masked rename) (emitting veiled) (emitting step) := by
  intro ⟨emitter, statics, mode, assigns, calls, values⟩
  simp only [emitting, masked, commutes emitter]
  cases step emitter <;> rfl

theorem demand_commutes {veiled answer : Except Fault α}
    (same : veiled = concealed rename id answer) :
    Commutes rename (masked rename) (demand veiled) (demand answer) := by
  rw [same]
  cases answer with
  | ok found => exact commutes_pure found
  | error fault => exact commutes_throw rfl

theorem atLine_commutes (line : Nat) : Commutes rename (masked rename) (atLine 1) (atLine line) :=
  emitting_commutes (Emitter.atLine_commutes line)

theorem emit_commutes (opcode : Opcode) :
    Commutes rename (masked rename) (emit opcode) (emit opcode) :=
  emitting_commutes (Emitter.write_commutes opcode [])

theorem indexed_commutes (opcode : Opcode) (index : Nat) (table : String) :
    Commutes rename (masked rename) (emitting (Emitter.writeIndexed opcode index table))
      (emitting (Emitter.writeIndexed opcode index table)) :=
  emitting_commutes (Emitter.writeIndexed_commutes opcode index table)

theorem load_commutes (ty : Ty) (id : VarId) :
    Commutes rename (masked rename) (load ty id) (load ty id) :=
  indexed_commutes _ _ _

theorem store_commutes (ty : Ty) (id : VarId) :
    Commutes rename (masked rename) (store ty id) (store ty id) :=
  indexed_commutes _ _ _

theorem closeAssign_commutes : Commutes rename (masked rename) closeAssign closeAssign :=
  commutes_modify fun s => by
    by_cases waiting : 0 < s.assigns - 1 ∨ 0 < s.calls ∨ 0 < s.values <;>
      simp only [masked, waiting, ↓reduceIte]

theorem enterExpr_commutes (e : Expr) :
    Commutes rename (masked rename) (enterExpr (e.masked rename)) (enterExpr e) := by
  cases e with
  | bool | int | double | name =>
      exact commutes_bind (atLine_commutes _) fun _ => commutes_get fun s =>
        commutes_unless (commutes_pure ()) rfl
  | binary | unary | cast | call =>
      exact commutes_bind (atLine_commutes _) fun _ => commutes_get fun s =>
        commutes_unless (commutes_modify fun _ => rfl) rfl
  | assign note op target value =>
      have opened : Commutes rename (masked rename) openAssign openAssign :=
        commutes_modify fun _ => rfl
      have targeted := demand_commutes (variableTarget_masked rename target)
      exact commutes_bind (atLine_commutes _) fun _ => commutes_get fun s =>
        commutes_unless (commutes_if
        (commutes_bind targeted fun ⟨ty, id⟩ => commutes_bind (load_commutes ty id) fun _ =>
          opened) opened) rfl

theorem betweenExpr_commutes (e : Expr) :
    Commutes rename (masked rename) (betweenExpr (e.masked rename)) (betweenExpr e) := by
  cases e with
  | assign note op target value =>
      have stores : Commutes rename (masked rename) (setMode .store) (setMode .store) :=
        commutes_modify fun _ => rfl
      cases op with
      | plain => exact stores
      | compound op =>
          exact commutes_bind (demand_commutes (typed_masked rename value)) fun ty =>
            commutes_bind (demand_commutes (arith_masked rename note.line op ty)) fun opcode =>
              commutes_bind (emit_commutes opcode) fun _ => stores
  | _ => exact commutes_pure ()

theorem leaveName_commutes (note : Note) (name : String) (binding : Option Binding) :
    Commutes rename (masked rename) (leaveExpr (.name note.masked (rename name) binding))
      (leaveExpr (.name note name binding)) := by
  refine commutes_bind (atLine_commutes _) fun _ => commutes_get fun s => ?_
  have typed := demand_commutes (typed_masked rename (.name note name binding))
  rcases s with ⟨emitter, statics, mode, assigns, calls, values⟩
  rcases binding with _ | id | id
  · exact commutes_throw rfl
  · cases mode with
    | load => exact commutes_bind typed fun ty => load_commutes ty id
    | store =>
        exact commutes_bind typed fun ty => commutes_bind (store_commutes ty id) fun _ =>
          commutes_get fun _ =>
          commutes_if (load_commutes ty id) (commutes_pure ())
  · cases mode with
    | load => exact indexed_commutes _ _ _
    | store => exact commutes_throw rfl

theorem leaveMutation_commutes (opcode : Opcode) (operand : Expr) :
    Commutes rename (masked rename) (leaveMutation opcode (operand.masked rename))
      (leaveMutation opcode operand) :=
  commutes_bind (demand_commutes (variableTarget_masked rename operand)) fun ⟨_, id⟩ =>
    commutes_bind (emit_commutes opcode) fun _ => commutes_bind (store_commutes .int id) fun _ =>
      load_commutes .int id

theorem leaveExpr_commutes (e : Expr) :
    Commutes rename (masked rename) (leaveExpr (e.masked rename)) (leaveExpr e) := by
  have closed : Commutes rename (masked rename) closeValue closeValue :=
    commutes_modify fun _ => rfl
  cases e with
  | bool note value =>
      exact commutes_bind (atLine_commutes _) fun _ =>
        emitting_commutes (Emitter.pushInt_commutes _)
  | int note value =>
      exact commutes_bind (atLine_commutes _) fun _ =>
        emitting_commutes (Emitter.pushInt_commutes value)
  | double note value =>
      exact commutes_bind (atLine_commutes _) fun _ =>
        emitting_commutes (Emitter.pushDouble_commutes value)
  | name note name binding => exact leaveName_commutes note name binding
  | binary note op left right =>
      have chosen :=
        demand_commutes (binaryOpcode_masked rename (.binary note op left right) op left)
      exact commutes_bind (atLine_commutes _) fun _ => commutes_bind closed fun _ =>
        commutes_bind chosen fun opcode => emit_commutes opcode
  | unary note op operand =>
      refine commutes_bind (atLine_commutes _) fun _ => commutes_bind closed fun _ => ?_
      cases op with
      | negate =>
          exact commutes_bind
            (demand_commutes (typed_masked rename (.unary note .negate operand))) fun ty =>
            commutes_bind (demand_commutes (negate_masked rename note.line ty)) fun opcode =>
            emit_commutes opcode
      | not => exact emit_commutes .not
      | increment => exact leaveMutation_commutes .increment operand
      | decrement => exact leaveMutation_commutes .decrement operand
  | cast note kind operand =>
      exact commutes_bind (atLine_commutes _) fun _ => commutes_bind closed fun _ =>
        emit_commutes (.convert kind)
  | assign note op target value =>
      exact commutes_bind (atLine_commutes _) fun _ => closeAssign_commutes
  | call note callee args =>
      exact commutes_bind (atLine_commutes _) fun _ =>
        commutes_bind (commutes_modify fun _ => rfl) fun _ =>
        emit_commutes .invoke

/-! Walks. -/

theorem walkExpr_commutes (e : Expr) :
    Commutes rename (masked rename) (generator.walkExpr (e.masked rename))
      (generator.walkExpr e) := by
  induction e with
  | bool | int | double | name =>
      exact commutes_bind (enterExpr_commutes _) fun _ => leaveExpr_commutes _
  | binary note op left right first second =>
      exact commutes_bind (enterExpr_commutes (.binary note op left right)) fun _ =>
        commutes_bind first fun _ =>
        commutes_bind (betweenExpr_commutes (.binary note op left right)) fun _ =>
        commutes_bind second fun _ =>
          leaveExpr_commutes (.binary note op left right)
  | assign note op target value first second =>
      exact commutes_bind (enterExpr_commutes (.assign note op target value)) fun _ =>
        commutes_bind second fun _ =>
        commutes_bind (betweenExpr_commutes (.assign note op target value)) fun _ =>
        commutes_bind first fun _ =>
          leaveExpr_commutes (.assign note op target value)
  | unary note op operand inner =>
      exact commutes_bind (enterExpr_commutes (.unary note op operand)) fun _ =>
        commutes_bind inner fun _ =>
        leaveExpr_commutes (.unary note op operand)
  | cast note kind operand inner =>
      exact commutes_bind (enterExpr_commutes (.cast note kind operand)) fun _ =>
        commutes_bind inner fun _ =>
        leaveExpr_commutes (.cast note kind operand)
  | call note callee args first inner =>
      have passed :
          Commutes rename (masked rename) (generator.walkArgs (Expr.maskedArgs rename args))
            (generator.walkArgs args) := by
        rw [Expr.maskedArgs_eq, Visitor.walkArgs_eq, Visitor.walkArgs_eq]
        exact commutes_forM args inner
      exact commutes_bind (enterExpr_commutes (.call note callee args)) fun _ =>
        commutes_bind passed fun _ =>
        commutes_bind first fun _ => leaveExpr_commutes (.call note callee args)

theorem enterStmt_commutes (s : Stmt) :
    Commutes rename (masked rename) (enterStmt (s.masked rename)) (enterStmt s) := by
  cases s with
  | declare | enterIf =>
      exact commutes_bind (atLine_commutes _) fun _ => commutes_modify fun _ => rfl
  | expr | beginBlock | endBlock | leaveIf =>
      exact commutes_bind (atLine_commutes _) fun _ => commutes_pure ()

theorem recordVariable_commutes (rename : String → String) (name : String) (ty : Ty) (id : VarId) :
    Commutes rename (masked rename) (recordVariable (rename name) ty id)
      (recordVariable name ty id) :=
  commutes_bind (demand_commutes (slot_masked rename id.index "static")) fun slot =>
    commutes_modify fun s => by
    simp [masked, StaticVariable.renamed]

theorem leaveDeclaration_commutes (line : Nat) (decl : Declaration) :
    Commutes rename (masked rename) (leaveDeclaration 1 (decl.masked rename))
      (leaveDeclaration line decl) := by
  rcases decl with ⟨name, ty, init, _ | id⟩
  · exact commutes_bind (commutes_modify fun _ => rfl) fun _ => commutes_throw rfl
  · refine commutes_bind (commutes_modify fun _ => rfl) fun _ => ?_
    have recorded := recordVariable_commutes rename name ty id
    cases init with
    | none => exact recorded
    | some init => exact commutes_bind (store_commutes ty id) fun _ => recorded

theorem leaveStmt_commutes (s : Stmt) :
    Commutes rename (masked rename) (leaveStmt (s.masked rename)) (leaveStmt s) := by
  unfold leaveStmt
  rw [Stmt.masked_line]
  refine commutes_bind (atLine_commutes _) fun _ => ?_
  cases s with
  | expr line value =>
      refine commutes_get fun s => ?_
      rcases s with ⟨emitter, statics, _ | _, assigns, calls, values⟩
      · exact emit_commutes .pop
      · exact commutes_modify fun _ => rfl
  | declare line decl => exact leaveDeclaration_commutes line decl
  | beginBlock line => exact emit_commutes .pushStackPointer
  | endBlock line => exact emit_commutes .popStackPointer
  | enterIf line condition =>
      exact commutes_bind (commutes_modify fun _ => rfl) fun _ =>
        commutes_discard (emitting_commutes Emitter.jumpAhead_commutes)
  | leaveIf line => exact commutes_discard (emitting_commutes Emitter.land_commutes)

theorem walkStmts_commutes (rename : String → String) (stmts : List Stmt) :
    Commutes rename (masked rename) (generator.walkStmts (stmts.map (Stmt.masked rename)))
      (generator.walkStmts stmts) := by
  refine commutes_forM stmts fun s _ => commutes_bind (enterStmt_commutes s) fun _ => ?_
  rw [Stmt.masked_root]
  cases s.root? with
  | none => exact leaveStmt_commutes s
  | some root => exact commutes_bind (walkExpr_commutes root) fun _ => leaveStmt_commutes s

/-! Bodies and programs. -/

theorem prologue_commutes (f : Function) :
    Commutes rename (masked rename) (prologue (f.masked rename)) (prologue f) := by
  refine commutes_bind (atLine_commutes _) fun _ => ?_
  rw [Function.masked, ← List.map_reverse]
  refine commutes_forM f.params.reverse fun param _ => ?_
  rcases param with ⟨name, ty, _ | id⟩
  · exact commutes_throw rfl
  · exact commutes_bind (store_commutes ty id) fun _ => recordVariable_commutes rename name ty id

theorem body_masked (options : LoweringOptions) (shared : Shared) {veiled steps : Lower Unit}
    (commutes : Commutes rename (masked rename) veiled steps) :
    body options (shared.masked rename) veiled =
      concealed rename (Prod.map Chunk.masked (Shared.masked rename))
        (body options shared steps) := by
  have start : start options (shared.masked rename) = (start options shared).masked rename := by
    simp [Lowering.start, masked, Emitter.start, Emitter.masked, Emitter.empty_masked,
      Shared.masked]
  rw [body, body, start, commutes]
  cases steps (Lowering.start options shared) with
  | error fault final => rfl
  | ok result final =>
      by_cases closed : final.emitter.labels.depth = 0
      · simp only [masked, Emitter.masked, closed, ↓reduceIte, Emitter.finish_masked]
        rfl
      · simp only [masked, Emitter.masked, closed, ↓reduceIte]
        rfl

theorem function_masked (options : LoweringOptions) (shared : Shared) (f : Function) :
    function options (shared.masked rename) (f.masked rename) =
      concealed rename (Prod.map (CompiledFunction.masked rename) (Shared.masked rename))
        (function options shared f) := by
  have types : (f.masked rename).paramTypes = f.paramTypes := f.masked_paramTypes rename
  rcases f with ⟨name, returns, params, body, line, _ | id⟩
  · rfl
  · have slot := slot_masked rename id.index "function"
    rw [function, function, types]
    cases body with
    | none => exact concealed_bind slot fun _ => rfl
    | some stmts =>
        have steps : Commutes rename (masked rename)
            (prologue (Function.masked rename
              ⟨name, returns, params, some stmts, line, some id⟩) >>= fun _ =>
              generator.walkStmts (stmts.map (Stmt.masked rename)))
            (prologue ⟨name, returns, params, some stmts, line, some id⟩ >>=
              fun _ => generator.walkStmts stmts) :=
          commutes_bind (prologue_commutes _) fun _ => walkStmts_commutes rename stmts
        exact concealed_bind (body_masked options shared steps) fun ⟨code, after⟩ =>
          concealed_bind slot fun _ => rfl

theorem functions_masked (options : LoweringOptions) (fs : List Function) (shared : Shared) :
    functions options (fs.map (Function.masked rename)) (shared.masked rename) =
      concealed rename (Prod.map (Array.map (CompiledFunction.masked rename))
        (Shared.masked rename)) (functions options fs shared) := by
  have start : (#[], shared.masked rename) =
      Prod.map (Array.map (CompiledFunction.masked rename)) (Shared.masked rename)
        (#[], shared) := by simp
  rw [functions, functions, start]
  refine concealed_foldlM ?_ fs (#[], shared)
  rintro ⟨compiled, before⟩ f
  refine concealed_bind (function_masked options before f) ?_
  rintro ⟨next, after⟩
  simp [concealed, pure, Except.pure]

end Lowering

/-- The executable of a masked program is the masked executable, and its fault the masked fault. -/
theorem Program.lower_masked (rename : String → String) (p : Program) (options : LoweringOptions) :
    (p.masked rename).lower options =
      concealed rename (Executable.masked rename) (p.lower options) := by
  have start : Shared.masked rename ⟨.empty, .empty options.labelLimit, #[]⟩ =
      ⟨.empty, .empty options.labelLimit, #[]⟩ := by
    simp [Shared.masked, ConstantPool.masked, ConstantPool.empty]
  have code := Lowering.body_masked options ⟨.empty, .empty options.labelLimit, #[]⟩
    (Lowering.walkStmts_commutes rename p.statements)
  rw [start] at code
  rw [lower, lower, masked_statements, masked_functions]
  refine concealed_bind code fun ⟨code, shared⟩ =>
    concealed_bind (Lowering.functions_masked options p.functions shared)
      fun ⟨functions, shared⟩ => ?_
  have sorted : ∀ found : List StaticVariable,
      (found.map (StaticVariable.renamed rename)).mergeSort (fun a b => a.slot ≤ b.slot) =
        (found.mergeSort fun a b => a.slot ≤ b.slot).map (StaticVariable.renamed rename) := by
    intro found
    refine (List.map_mergeSort ?_).symm
    exact fun _ _ _ _ => rfl
  simp [concealed, Prod.map, Shared.masked, Executable.masked, sorted, pure, Except.pure]

end StackCompiler
