import StackCompiler.Lowering.Program
import StackCompiler.Proofs.Lowering.Code
import StackCompiler.Proofs.Walk.Order

/-!
Walking an expression for code.

`walk_expr` is the main statement. Whatever the annotations are, a walk that was entered in loading
mode and succeeds has appended `Expr.code` and the constants of the expression, has left the
counters as they were, and has left the mode at storing only behind an assignment nobody waits for.
A walk that fails on an expression with nothing missing has run out of indices.
-/
namespace StackCompiler.Lowering

section Hooks
variable (emitter : Emitter) (statics : Array StaticVariable) (mode : Mode)
  (assigns calls values : Nat)

theorem enter_load (e : Expr) :
    enterExpr e ⟨emitter, statics, .load, assigns, calls, values⟩ =
      (match e with
      | .binary .. | .unary .. | .cast .. => openValue
      | .assign _ op target _ => do
          if op.isCompound then
            let (ty, id) ← demand target.variableTarget
            load ty id
          openAssign
      | .call .. => openCall
      | .bool .. | .int .. | .double .. | .name .. => pure () : Lower Unit)
        ⟨emitter.wrote [] [] e.line, statics, .load, assigns, calls, values⟩ := by
  unfold enterExpr
  refine (bind_run (atLine_run ..)).trans ((bind_run (get_run _)).trans ?_)
  cases e <;> rfl

theorem enter_store (e : Expr) :
    enterExpr e ⟨emitter, statics, .store, assigns, calls, values⟩ =
      if e.isName then
        .ok () ⟨emitter.wrote [] [] e.line, statics, .store, assigns, calls, values⟩
      else .error (.invalidTarget e.line)
        ⟨emitter.wrote [] [] e.line, statics, .store, assigns, calls, values⟩ := by
  unfold enterExpr
  rw [bind_run (atLine_run ..), bind_run (get_run _)]
  cases e <;> simp [Expr.isName] <;> rfl

theorem meets_indexed {opcode : Opcode} (arity : opcode.arity = 1) (index : Nat) (table : String) :
    Meets (emitting (Emitter.writeIndexed opcode index table))
      ⟨emitter, statics, mode, assigns, calls, values⟩
      (fun _ t => t = ⟨emitter.wrote (indexed emitter.line opcode index) [] emitter.line, statics,
        mode, assigns, calls, values⟩)
      (fun fault => fault.IsOverflow ∧ UInt16.size ≤ index) := by
  rw [Meets, writeIndexed_run _ _ _ _ _ _ arity]
  by_cases wide : UInt16.size ≤ index
  · rw [if_pos wide]
    exact ⟨⟨table, index, rfl⟩, wide⟩
  · rw [if_neg wide]
    rfl

theorem meets_constant {opcode : Opcode} (arity : opcode.arity = 1) (constant : Constant) :
    Meets (emitting (do Emitter.writeIndexed opcode (← Emitter.addConstant constant) "constant"))
      ⟨emitter, statics, mode, assigns, calls, values⟩
      (fun _ t =>
        t = ⟨emitter.wrote (indexed emitter.line opcode emitter.constants.size) [constant]
            emitter.line, statics, mode, assigns, calls, values⟩ ∧
          emitter.constants.size < UInt16.size)
      (fun fault => fault.IsOverflow ∧ UInt16.size ≤ emitter.constants.size) := by
  rw [Meets, pushConstant_run _ _ _ _ _ _ arity]
  by_cases wide : UInt16.size ≤ emitter.constants.size
  · rw [if_pos wide]
    exact ⟨⟨_, _, rfl⟩, wide⟩
  · rw [if_neg wide]
    exact ⟨rfl, Nat.lt_of_not_le wide⟩

end Hooks

section Names
variable (emitter : Emitter) (statics : Array StaticVariable) (assigns calls values : Nat)
  (note : Note) (identifier : String) (binding : Option Binding)

theorem meets_typed_name (id : VarId) (s : Lowering) :
    Meets (demand (Expr.name note identifier (some (.variable id))).typed) s
      (fun ty t => (Expr.name note identifier (some (.variable id))).variableTarget =
        .ok (ty, id) ∧ t = s)
      (fun _ => ¬ Answered (Expr.name note identifier (some (.variable id))).variableTarget) := by
  apply meets_weaken (meets_demand _ _)
  · rintro ty t ⟨known, rfl⟩
    exact ⟨by simp only [Expr.variableTarget, known, Except.map], rfl⟩
  · rintro fault missing ⟨found, answer⟩
    refine absurd ?_ missing
    cases known : (Expr.name note identifier (some (.variable id))).typed with
    | ok ty => exact ⟨ty, rfl⟩
    | error fault => simp [Expr.variableTarget, known, Except.map] at answer

theorem leave_load_name :
    Meets (leaveExpr (.name note identifier binding))
      ⟨emitter, statics, .load, assigns, calls, values⟩
      (fun _ t =>
        t = ⟨emitter.wrote ((Expr.name note identifier binding).code 0 true) [] note.line,
          statics, .load, assigns, calls, values⟩)
      (fun fault => (Expr.name note identifier binding).Supplied →
        fault.IsOverflow ∧ ¬ (Expr.name note identifier binding).SlotFits) := by
  unfold leaveExpr
  apply meets_run (atLine_run ..)
  apply meets_run (get_run _)
  match binding with
  | none => exact fun supplied => supplied.elim
  | some (.function id) =>
      apply meets_weaken (meets_indexed _ _ _ _ _ _ rfl id.index "function")
      · rintro _ t rfl
        simp [Expr.line, Expr.code]
      · rintro fault ⟨overflow, wide⟩ _
        exact ⟨overflow, Nat.not_lt.mpr wide⟩
  | some (.variable id) =>
      apply meets_bind (meets_typed_name note identifier id _)
      · exact fun fault missing answer => absurd answer missing
      · rintro ty _ ⟨known, rfl⟩
        apply meets_weaken (meets_indexed _ _ _ _ _ _ rfl id.index "static")
        · rintro _ t rfl
          simp [Expr.line, Expr.code, known, loaded]
        · rintro fault ⟨overflow, wide⟩ _
          exact ⟨overflow, Nat.not_lt.mpr wide⟩

theorem leave_store_name :
    Meets (leaveExpr (.name note identifier binding))
      ⟨emitter, statics, .store, assigns, calls, values⟩
      (fun _ t =>
        t = ⟨emitter.wrote (stored note.line (decide (1 < assigns ∨ 0 < calls ∨ 0 < values))
            (Expr.name note identifier binding).variableTarget) [] note.line,
          statics, .store, assigns, calls, values⟩)
      (fun fault => Answered (Expr.name note identifier binding).variableTarget →
        fault.IsOverflow ∧ ¬ (Expr.name note identifier binding).SlotFits) := by
  unfold leaveExpr
  apply meets_run (atLine_run ..)
  apply meets_run (get_run _)
  match binding with
  | none | some (.function id) => exact fun ⟨_, answer⟩ => by cases answer
  | some (.variable id) =>
      apply meets_bind (meets_typed_name note identifier id _)
      · exact fun fault missing answer => absurd answer missing
      · rintro ty _ ⟨known, rfl⟩
        apply meets_bind (meets_indexed _ _ _ _ _ _ rfl id.index "static")
        · rintro fault ⟨overflow, wide⟩ _
          exact ⟨overflow, Nat.not_lt.mpr wide⟩
        · rintro _ _ rfl
          apply meets_run (get_run _)
          -- The value is loaded again for whoever else waits for it, this assignment not counted.
          by_cases kept : 1 < assigns ∨ 0 < calls ∨ 0 < values
          · simp only [keepsValue, kept, decide_true, ↓reduceIte]
            apply meets_weaken (meets_indexed _ _ _ _ _ _ rfl id.index "static")
            · rintro _ t rfl
              simp [Expr.line, known, stored]
            · rintro fault ⟨overflow, wide⟩ _
              exact ⟨overflow, Nat.not_lt.mpr wide⟩
          · simp only [keepsValue, kept, decide_false]
            simp [Meets, pure, EStateM.pure, Expr.line, known, stored]

end Names

theorem walk_enters (e : Expr) : ∃ rest, generator.walkExpr e = enterExpr e >>= rest := by
  cases e <;> exact ⟨_, by rw [Visitor.walkExpr]; rfl⟩

theorem walk_target (target : Expr) (emitter : Emitter) (statics : Array StaticVariable)
    (assigns calls values : Nat) :
    Meets (generator.walkExpr target) ⟨emitter, statics, .store, assigns, calls, values⟩
      (fun _ t =>
        t = ⟨emitter.wrote (stored target.line (decide (1 < assigns ∨ 0 < calls ∨ 0 < values))
            target.variableTarget) [] target.line,
          statics, .store, assigns, calls, values⟩ ∧ target.constants = [])
      (fun fault => Answered target.variableTarget →
        fault.IsOverflow ∧ ¬ ∀ node ∈ target.nodes, node.SlotFits) := by
  by_cases named : target.isName
  · match target, named with
    | .name note identifier binding, _ =>
        rw [Visitor.walkExpr_name]
        apply meets_run (enter_store ..)
        apply meets_weaken (leave_store_name ..)
        · rintro _ t rfl
          simp [Expr.line]
        · intro fault failed answer
          refine ⟨(failed answer).1, fun fits => (failed answer).2 (fits _ ?_)⟩
          simp [Expr.nodes]
  · obtain ⟨rest, walk⟩ := walk_enters target
    rw [walk]
    -- Anything but a name is refused on entry, so nothing more of it is visited.
    have stops : Meets (enterExpr target) ⟨emitter, statics, .store, assigns, calls, values⟩
        (fun _ _ => False) (fun _ => ¬ Answered target.variableTarget) := by
      rw [Meets, enter_store, if_neg named]
      rintro ⟨_, answer⟩
      cases target with
      | name => exact absurd rfl named
      | _ => cases answer
    apply meets_bind stops
    · exact fun fault missing answer => absurd answer missing
    · exact fun _ _ impossible => impossible.elim

/-- What a walk that entered an expression in loading mode leaves when it succeeds. -/
def Leaves (e : Expr) (emitter : Emitter) (statics : Array StaticVariable)
    (assigns calls values : Nat) (t : Lowering) : Prop :=
  let kept := waiting assigns calls values
  t = ⟨emitter.wrote (e.code emitter.constants.size kept) e.constants e.line, statics,
    if e.isAssign && !kept then .store else .load, assigns, calls, values⟩ ∧
  (emitter.constants.size ≤ UInt16.size → emitter.constants.size + e.constants.length ≤ UInt16.size)

def LeavesValue (e : Expr) (emitter : Emitter) (statics : Array StaticVariable)
    (assigns calls values : Nat) (t : Lowering) : Prop :=
  t = ⟨emitter.wrote (e.code emitter.constants.size true) e.constants e.line, statics,
    .load, assigns, calls, values⟩ ∧
  (emitter.constants.size ≤ UInt16.size → emitter.constants.size + e.constants.length ≤ UInt16.size)

def Spills (e : Expr) (base : Nat) (fault : Fault) : Prop :=
  e.Ready → fault.IsOverflow ∧ ¬ e.Fits base

def WalksAsCode (e : Expr) : Prop :=
  ∀ emitter statics assigns calls values,
    Meets (generator.walkExpr e) ⟨emitter, statics, .load, assigns, calls, values⟩
      (fun _ => Leaves e emitter statics assigns calls values) (Spills e emitter.constants.size)

theorem walk_value {e : Expr} (walks : WalksAsCode e) (emitter : Emitter)
    (statics : Array StaticVariable) (assigns calls values : Nat)
    (kept : waiting assigns calls values = true) :
    Meets (generator.walkExpr e) ⟨emitter, statics, .load, assigns, calls, values⟩
      (fun _ => LeavesValue e emitter statics assigns calls values)
      (Spills e emitter.constants.size) := by
  apply meets_weaken (walks emitter statics assigns calls values)
  · rintro _ t ⟨rfl, bound⟩
    exact ⟨by simp [kept], bound⟩
  · exact fun _ spills => spills

/-- A part that fails for want of room leaves no room for the whole. -/
theorem spills_part (part : Expr) (offset : Nat) {whole : Expr} {base : Nat} {fault : Fault}
    (inside : ∀ node ∈ part.nodes, node ∈ whole.nodes)
    (room : offset + part.constants.length ≤ whole.constants.length)
    (spills : Spills part (base + offset) fault) : Spills whole base fault := by
  intro ready
  obtain ⟨overflow, wide⟩ := spills fun node member => ready node (inside node member)
  refine ⟨overflow, fun fits =>
    wide ⟨?_, fun node member => fits.2 node (inside node member)⟩⟩
  have whole := fits.1
  omega

theorem spills_unsupplied {e : Expr} {base : Nat} {fault : Fault} (missing : ¬ e.Supplied) :
    Spills e base fault :=
  fun ready => absurd (ready e (Expr.self_mem_nodes e)) missing

theorem spills_slots (part : Expr) {whole : Expr} {base : Nat} {fault : Fault}
    (inside : ∀ node ∈ part.nodes, node ∈ whole.nodes)
    (failed : whole.Supplied → fault.IsOverflow ∧ ¬ ∀ node ∈ part.nodes, node.SlotFits) :
    Spills whole base fault := by
  intro ready
  obtain ⟨overflow, wide⟩ := failed (ready whole (Expr.self_mem_nodes whole))
  exact ⟨overflow, fun fits => wide fun node member => fits.2 node (inside node member)⟩

section Registers
variable (emitter : Emitter) (statics : Array StaticVariable) (mode : Mode)
  (assigns calls values : Nat) (note : Note)

theorem closeValue_run :
    closeValue ⟨emitter, statics, mode, assigns, calls, values⟩ =
      .ok () ⟨emitter, statics, mode, assigns, calls, values - 1⟩ := rfl

theorem closeCall_run :
    closeCall ⟨emitter, statics, mode, assigns, calls, values⟩ =
      .ok () ⟨emitter, statics, mode, assigns, calls - 1, values⟩ := rfl

theorem openAssign_run :
    openAssign ⟨emitter, statics, mode, assigns, calls, values⟩ =
      .ok () ⟨emitter, statics, mode, assigns + 1, calls, values⟩ := rfl

theorem setMode_run (next : Mode) :
    setMode next ⟨emitter, statics, mode, assigns, calls, values⟩ =
      .ok () ⟨emitter, statics, next, assigns, calls, values⟩ := rfl

theorem enter_binary (op : BinaryOp) (left right : Expr) :
    enterExpr (.binary note op left right) ⟨emitter, statics, .load, assigns, calls, values⟩ =
      .ok () ⟨emitter.wrote [] [] note.line, statics, .load, assigns, calls, values + 1⟩ :=
  enter_load ..

theorem enter_unary (op : UnaryOp) (operand : Expr) :
    enterExpr (.unary note op operand) ⟨emitter, statics, .load, assigns, calls, values⟩ =
      .ok () ⟨emitter.wrote [] [] note.line, statics, .load, assigns, calls, values + 1⟩ :=
  enter_load ..

theorem enter_cast (kind : Cast) (operand : Expr) :
    enterExpr (.cast note kind operand) ⟨emitter, statics, .load, assigns, calls, values⟩ =
      .ok () ⟨emitter.wrote [] [] note.line, statics, .load, assigns, calls, values + 1⟩ :=
  enter_load ..

theorem enter_call (callee : Expr) (args : List Expr) :
    enterExpr (.call note callee args) ⟨emitter, statics, .load, assigns, calls, values⟩ =
      .ok () ⟨emitter.wrote [] [] note.line, statics, .load, assigns, calls + 1, values⟩ :=
  enter_load ..

theorem enter_name (identifier : String) (binding : Option Binding) :
    enterExpr (.name note identifier binding)
      ⟨emitter, statics, .load, assigns, calls, values⟩ =
      .ok () ⟨emitter.wrote [] [] note.line, statics, .load, assigns, calls, values⟩ :=
  enter_load ..

end Registers

theorem walk_literal {e : Expr} {opcode : Opcode} {constant : Constant} (arity : opcode.arity = 1)
    (walk : generator.walkExpr e = do
      enterExpr e
      leaveExpr e)
    (enter : ∀ emitter statics assigns calls values,
      enterExpr e ⟨emitter, statics, .load, assigns, calls, values⟩ =
        .ok () ⟨emitter.wrote [] [] e.line, statics, .load, assigns, calls, values⟩)
    (leave : leaveExpr e = do
      atLine e.line
      emitting (do Emitter.writeIndexed opcode (← Emitter.addConstant constant) "constant"))
    (code : ∀ base kept, e.code base kept = indexed e.line opcode base)
    (constants : e.constants = [constant]) (plain : e.isAssign = false) : WalksAsCode e := by
  intro emitter statics assigns calls values
  rw [walk]
  apply meets_run (enter ..)
  rw [leave]
  apply meets_run (atLine_run ..)
  apply meets_weaken (meets_constant _ _ _ _ _ _ arity constant)
  · rintro _ t ⟨rfl, bound⟩
    constructor
    · simp [code, constants, plain]
    · simp only [Emitter.wrote_size, List.length_nil, constants, List.length_singleton] at bound ⊢
      omega
  · rintro fault ⟨overflow, wide⟩ _
    refine ⟨overflow, fun fits => ?_⟩
    have room := fits.1
    simp only [Emitter.wrote_size, List.length_nil, constants, List.length_singleton] at wide room
    omega

theorem walk_name (note : Note) (identifier : String) (binding : Option Binding) :
    WalksAsCode (.name note identifier binding) := by
  intro emitter statics assigns calls values
  rw [Visitor.walkExpr_name]
  apply meets_run (enter_name ..)
  apply meets_weaken (leave_load_name ..)
  · rintro _ t rfl
    exact ⟨by simp [Expr.isAssign, Expr.code, Expr.line], by simp⟩
  · intro fault failed ready
    obtain ⟨overflow, wide⟩ := failed (ready _ (Expr.self_mem_nodes _))
    exact ⟨overflow, fun fits => wide (fits.2 _ (Expr.self_mem_nodes _))⟩

theorem walk_binary (note : Note) (op : BinaryOp) (left right : Expr) (first : WalksAsCode left)
    (second : WalksAsCode right) : WalksAsCode (.binary note op left right) := by
  intro emitter statics assigns calls values
  rw [Visitor.walkExpr_binary]
  apply meets_run (enter_binary ..)
  -- Each operand is walked with one more value open, so behind it the mode is that of loading
  -- again.
  apply meets_bind (walk_value first _ _ _ _ _ (by simp [waiting]))
  · intro fault spills
    exact spills_part left 0 (fun node member => by simp [Expr.nodes, member])
      (by simp) (by simpa using spills)
  rintro _ _ ⟨rfl, leftBound⟩
  apply meets_run (by rfl)
  apply meets_bind (walk_value second _ _ _ _ _ (by simp [waiting]))
  · intro fault spills
    exact spills_part right left.constants.length
      (fun node member => by simp [Expr.nodes, member]) (by simp) (by simpa using spills)
  rintro _ _ ⟨rfl, rightBound⟩
  apply meets_run (atLine_run ..)
  apply meets_run (closeValue_run ..)
  apply meets_bind (meets_demand _ _)
  · exact fun fault missing => spills_unsupplied missing
  rintro opcode _ ⟨choice, rfl⟩
  apply meets_done (emit_run _ _ _ _ _ _ (operator_arity (binary_operator choice)))
  constructor
  · simp [Expr.isAssign, Expr.code, choice, chosen, written, Expr.line]
  · simp at leftBound rightBound ⊢
    omega

theorem walk_cast (note : Note) (kind : Cast) (operand : Expr) (inner : WalksAsCode operand) :
    WalksAsCode (.cast note kind operand) := by
  intro emitter statics assigns calls values
  rw [Visitor.walkExpr_cast]
  apply meets_run (enter_cast ..)
  apply meets_bind (walk_value inner _ _ _ _ _ (by simp [waiting]))
  · intro fault spills
    exact spills_part operand 0
      (fun node member => by simp [Expr.nodes, member]) (by simp) (by simpa using spills)
  rintro _ _ ⟨rfl, bound⟩
  apply meets_run (atLine_run ..)
  apply meets_run (closeValue_run ..)
  apply meets_done (emit_run _ _ _ _ _ _ rfl)
  exact ⟨by simp [Expr.isAssign, Expr.code, written, Expr.line], by simpa using bound⟩

theorem leave_change {opcode : Opcode} (plain : opcode.arity = 0) (operand : Expr)
    (emitter : Emitter) (statics : Array StaticVariable) (assigns calls values : Nat) :
    Meets (leaveMutation opcode operand) ⟨emitter, statics, .load, assigns, calls, values⟩
      (fun _ t => t = ⟨emitter.wrote (changed emitter.line opcode operand.variableTarget) []
        emitter.line, statics, .load, assigns, calls, values⟩)
      (fun fault => Answered operand.variableTarget →
        fault.IsOverflow ∧ ¬ ∀ node ∈ operand.nodes, node.SlotFits) := by
  apply meets_bind (meets_demand _ _)
  · exact fun fault missing answer => absurd answer missing
  rintro ⟨ty, id⟩ _ ⟨known, rfl⟩
  -- Only a name has a variable to change, and the place of the variable is the operand of the
  -- store.
  have slot : (∀ node ∈ operand.nodes, node.SlotFits) → id.index < UInt16.size := by
    obtain ⟨line, identifier, rfl⟩ := variable_target_ok known
    exact fun fits => fits _ (Expr.self_mem_nodes _)
  apply meets_run (emit_run _ _ _ _ _ _ plain)
  apply meets_bind (meets_indexed _ _ _ _ _ _ rfl id.index "static")
  · rintro fault ⟨overflow, wide⟩ _
    exact ⟨overflow, fun fits => absurd (slot fits) (Nat.not_lt.mpr wide)⟩
  rintro _ _ rfl
  apply meets_weaken (meets_indexed _ _ _ _ _ _ rfl id.index "static")
  · rintro _ t rfl
    simp [known, changed, written, Ty.kind]
  · rintro fault ⟨overflow, wide⟩ _
    exact ⟨overflow, fun fits => absurd (slot fits) (Nat.not_lt.mpr wide)⟩

theorem walk_args (args : List Expr) (walks : ∀ arg ∈ args, WalksAsCode arg) (emitter : Emitter)
    (statics : Array StaticVariable) (assigns calls values : Nat)
    (kept : waiting assigns calls values = true) :
    Meets (generator.walkArgs args) ⟨emitter, statics, .load, assigns, calls, values⟩
      (fun _ t => (∃ line, t = ⟨emitter.wrote (Expr.codeOfArgs emitter.constants.size args)
          (args.flatMap Expr.constants) line, statics, .load, assigns, calls, values⟩) ∧
        (emitter.constants.size ≤ UInt16.size →
          emitter.constants.size + (args.flatMap Expr.constants).length ≤ UInt16.size))
      (fun fault => (∀ arg ∈ args, arg.Ready) → fault.IsOverflow ∧
        ¬ (emitter.constants.size + (args.flatMap Expr.constants).length ≤ UInt16.size ∧
          ∀ arg ∈ args, ∀ node ∈ arg.nodes, node.SlotFits)) := by
  induction args generalizing emitter with
  | nil => exact ⟨⟨emitter.line, by simp [Expr.codeOfArgs, Emitter.wrote_nothing]⟩, by simp⟩
  | cons arg rest ih =>
      rw [Visitor.walkArgs_cons]
      apply meets_bind (walk_value (walks arg (by simp)) _ _ _ _ _ kept)
      · intro fault spills ready
        obtain ⟨overflow, wide⟩ := spills (ready arg (by simp))
        refine ⟨overflow, fun fits => wide ⟨?_, fits.2 arg (by simp)⟩⟩
        have room := fits.1
        simp only [List.flatMap_cons, List.length_append] at room
        omega
      rintro _ _ ⟨rfl, bound⟩
      apply meets_weaken (ih (fun next member => walks next (by simp [member])) _)
      · rintro _ t ⟨⟨line, rfl⟩, restBound⟩
        refine ⟨⟨line, by simp [Expr.codeOfArgs]⟩, ?_⟩
        simp at restBound ⊢
        omega
      · intro fault failed ready
        obtain ⟨overflow, wide⟩ := failed fun next member => ready next (by simp [member])
        refine ⟨overflow, fun fits =>
          wide ⟨?_, fun next member => fits.2 next (by simp [member])⟩⟩
        have room := fits.1
        simp only [List.flatMap_cons, List.length_append, Emitter.wrote_size] at room ⊢
        omega

theorem leave_unary (note : Note) (op : UnaryOp) (operand : Expr) (emitter : Emitter)
    (statics : Array StaticVariable) (assigns calls values : Nat) :
    Meets (leaveUnary (.unary note op operand) op operand)
      ⟨emitter.wrote [] [] note.line, statics, .load, assigns, calls, values⟩
      (fun _ t => t = ⟨emitter.wrote (unaryCode (.unary note op operand) op operand) [] note.line,
        statics, .load, assigns, calls, values⟩)
      (fun fault => (Expr.unary note op operand).Supplied →
        fault.IsOverflow ∧ ¬ ∀ node ∈ operand.nodes, node.SlotFits) := by
  cases op with
  | negate =>
      apply meets_bind (meets_demand _ _)
      · rintro fault missing ⟨opcode, answer⟩
        obtain ⟨ty, found, _⟩ := typed_bind_ok answer
        exact absurd ⟨ty, by simp only [Expr.typed, found]⟩ missing
      rintro ty _ ⟨known, rfl⟩
      apply meets_bind (meets_demand _ _)
      · rintro fault missing ⟨opcode, answer⟩
        exact absurd ⟨opcode, by simpa only [known, Except.bind] using answer⟩ missing
      rintro opcode _ ⟨(choice : negateOpcode ty note.line = .ok opcode), rfl⟩
      have plain : opcode.arity = 0 := by
        rw [negate_opcode_ok choice]
        rfl
      apply meets_done (emit_run _ _ _ _ _ _ plain)
      simp [unaryCode, known, Except.bind, choice, chosen, written, Expr.line]
  | not =>
      apply meets_done (emit_run _ _ _ _ _ _ rfl)
      simp [unaryCode, written, Expr.line]
  | increment | decrement =>
      apply meets_weaken (leave_change rfl operand ..)
      · rintro _ t rfl
        simp [unaryCode, Expr.line]
      · exact fun _ failed => failed

theorem walk_unary (note : Note) (op : UnaryOp) (operand : Expr) (inner : WalksAsCode operand) :
    WalksAsCode (.unary note op operand) := by
  intro emitter statics assigns calls values
  rw [Visitor.walkExpr_unary]
  apply meets_run (enter_unary ..)
  apply meets_bind (walk_value inner _ _ _ _ _ (by simp [waiting]))
  · intro fault spills
    exact spills_part operand 0
      (fun node member => by simp [Expr.nodes, member]) (by simp) (by simpa using spills)
  rintro _ _ ⟨rfl, bound⟩
  apply meets_run (atLine_run ..)
  apply meets_run (closeValue_run ..)
  apply meets_weaken (leave_unary ..)
  · rintro _ t rfl
    exact ⟨by simp [Expr.isAssign, Expr.code, Expr.line], by simpa using bound⟩
  · exact fun fault failed =>
      spills_slots operand (fun node member => by simp [Expr.nodes, member]) failed

theorem walk_call (note : Note) (callee : Expr) (args : List Expr) (target : WalksAsCode callee)
    (inner : ∀ arg ∈ args, WalksAsCode arg) : WalksAsCode (.call note callee args) := by
  intro emitter statics assigns calls values
  have among :
      ∀ arg ∈ args, ∀ node ∈ arg.nodes, node ∈ (Expr.call note callee args).nodes := by
    intro arg member node inside
    simp only [Expr.nodes, Expr.nodesOfArgs_eq, List.mem_append, List.mem_flatMap]
    exact Or.inl (Or.inl ⟨arg, member, inside⟩)
  rw [Visitor.walkExpr_call]
  apply meets_run (enter_call ..)
  apply meets_bind (walk_args args inner _ _ _ _ _ (by simp [waiting]))
  · intro fault failed ready
    obtain ⟨overflow, wide⟩ :=
      failed fun arg member node inside => ready node (among arg member node inside)
    refine ⟨overflow, fun fits => wide ⟨?_, fun arg member node inside =>
      fits.2 node (among arg member node inside)⟩⟩
    have room := fits.1
    simp at room ⊢
    omega
  rintro _ _ ⟨⟨line, rfl⟩, argsBound⟩
  apply meets_bind (walk_value target _ _ _ _ _ (by simp [waiting]))
  · intro fault spills
    exact spills_part callee (args.flatMap Expr.constants).length
      (fun node member => by simp [Expr.nodes, member]) (by simp) (by simpa using spills)
  rintro _ _ ⟨rfl, calleeBound⟩
  apply meets_run (atLine_run ..)
  apply meets_run (closeCall_run ..)
  apply meets_done (emit_run _ _ _ _ _ _ rfl)
  constructor
  · simp [Expr.isAssign, Expr.code, written, Expr.line]
  · simp at argsBound calleeBound ⊢
    omega

theorem enter_assign (note : Note) (op : AssignOp) (target value : Expr) (emitter : Emitter)
    (statics : Array StaticVariable) (assigns calls values : Nat) :
    Meets (enterExpr (.assign note op target value))
      ⟨emitter, statics, .load, assigns, calls, values⟩
      (fun _ t =>
        t = ⟨emitter.wrote (if op.isCompound then loaded note.line target.variableTarget else [])
            [] note.line,
          statics, .load, assigns + 1, calls, values⟩)
      (fun fault => Answered target.variableTarget →
        fault.IsOverflow ∧ ¬ ∀ node ∈ target.nodes, node.SlotFits) := by
  rw [Meets, enter_load]
  cases op with
  | plain => rfl
  | compound op =>
      apply meets_bind (meets_demand _ _)
      · exact fun fault missing answer => absurd answer missing
      rintro ⟨ty, id⟩ _ ⟨known, rfl⟩
      apply meets_bind (meets_indexed _ _ _ _ _ _ rfl id.index "static")
      · rintro fault ⟨overflow, wide⟩ _
        obtain ⟨line, identifier, rfl⟩ := variable_target_ok known
        exact ⟨overflow, fun fits =>
          absurd (fits _ (Expr.self_mem_nodes _)) (Nat.not_lt.mpr wide)⟩
      rintro _ _ rfl
      refine meets_done (openAssign_run ..) ?_
      simp [AssignOp.isCompound, AssignOp.arithmetic?, known, loaded, Expr.line]

theorem between_assign (note : Note) (op : AssignOp) (target value : Expr) (emitter : Emitter)
    (statics : Array StaticVariable) (assigns calls values : Nat) :
    Meets (betweenExpr (.assign note op target value))
      ⟨emitter, statics, .load, assigns, calls, values⟩
      (fun _ t => t = ⟨emitter.wrote (operatorCode emitter.line note.line op value) []
        emitter.line, statics, .store, assigns, calls, values⟩)
      (fun _ => ¬ (Expr.assign note op target value).Supplied) := by
  cases op with
  | plain =>
      refine meets_done (setMode_run ..) ?_
      simp [operatorCode, Emitter.wrote_nothing]
  | compound op =>
      apply meets_bind (meets_demand _ _)
      · rintro fault missing ⟨_, choices⟩
        obtain ⟨opcode, answer⟩ := choices op rfl
        obtain ⟨ty, found, _⟩ := typed_bind_ok answer
        exact missing ⟨ty, by simp only [Expr.typed, found]⟩
      rintro ty _ ⟨known, rfl⟩
      apply meets_bind (meets_demand _ _)
      · rintro fault missing ⟨_, choices⟩
        obtain ⟨opcode, answer⟩ := choices op rfl
        exact missing ⟨opcode, by simpa only [known, Except.bind] using answer⟩
      rintro opcode _ ⟨choice, rfl⟩
      have plain : opcode.arity = 0 := by
        rw [arith_opcode_ok choice]
        rfl
      apply meets_run (emit_run _ _ _ _ _ _ plain)
      refine meets_done (setMode_run ..) ?_
      simp [operatorCode, known, Except.bind, choice, chosen, written]

theorem closeAssign_run (emitter : Emitter) (statics : Array StaticVariable)
    (assigns calls values : Nat) :
    closeAssign ⟨emitter, statics, .store, assigns + 1, calls, values⟩ =
      .ok () ⟨emitter, statics, if waiting assigns calls values then .load else .store,
        assigns, calls, values⟩ := by
  by_cases kept : 0 < assigns ∨ 0 < calls ∨ 0 < values <;>
    simp [closeAssign, modify_run, waiting, kept]

theorem walk_assign (note : Note) (op : AssignOp) (target value : Expr)
    (walks : WalksAsCode value) : WalksAsCode (.assign note op target value) := by
  intro emitter statics assigns calls values
  have inside : ∀ node ∈ target.nodes, node ∈ (Expr.assign note op target value).nodes :=
    fun node member => by simp [Expr.nodes, member]
  rw [Visitor.walkExpr_assign]
  apply meets_bind (enter_assign ..)
  · intro fault failed
    exact spills_slots target inside fun supplied => failed supplied.1
  rintro _ _ rfl
  apply meets_bind (walk_value walks _ _ _ _ _ (by simp [waiting]))
  · intro fault spills
    exact spills_part value 0
      (fun node member => by simp [Expr.nodes, member]) (by simp) (by simpa using spills)
  rintro _ _ ⟨rfl, bound⟩
  apply meets_bind (between_assign note op target value ..)
  · exact fun fault missing => spills_unsupplied missing
  rintro _ _ rfl
  -- From here to the end of the target the mode is that of storing.
  apply meets_bind (walk_target target ..)
  · intro fault failed
    exact spills_slots target inside fun supplied => failed supplied.1
  rintro _ _ ⟨rfl, none⟩
  apply meets_run (atLine_run ..)
  apply meets_done (closeAssign_run ..)
  -- The target counts the assignment that it belongs to, and the code does not.
  have keeps :
      decide (1 < assigns + 1 ∨ 0 < calls ∨ 0 < values) = waiting assigns calls values := by
    simp [waiting]
  refine ⟨?_, by simpa [none] using bound⟩
  rw [keeps]
  cases waiting assigns calls values <;> simp [Expr.isAssign, Expr.code, none, Expr.line]

/-- Any expression: a walk that succeeds appended its code, and one that fails on a complete
expression ran out of indices. -/
theorem walk_expr (e : Expr) : WalksAsCode e := by
  induction e with
  | bool note value =>
      exact walk_literal rfl (Visitor.walkExpr_bool ..) (fun _ _ _ _ _ => enter_load ..) rfl
        (fun _ _ => rfl) rfl rfl
  | int note value =>
      exact walk_literal rfl (Visitor.walkExpr_int ..) (fun _ _ _ _ _ => enter_load ..) rfl
        (fun _ _ => rfl) rfl rfl
  | double note value =>
      exact walk_literal rfl (Visitor.walkExpr_double ..) (fun _ _ _ _ _ => enter_load ..) rfl
        (fun _ _ => rfl) rfl rfl
  | name note identifier binding => exact walk_name note identifier binding
  | binary note op left right first second => exact walk_binary note op left right first second
  | unary note op operand inner => exact walk_unary note op operand inner
  | assign note op target value _ inner => exact walk_assign note op target value inner
  | call note callee args target inner => exact walk_call note callee args target inner
  | cast note kind operand inner => exact walk_cast note kind operand inner

end StackCompiler.Lowering
