import StackCompiler.Proofs.Lowering.Statements

/-!
The executable of a program as a function of the program.

Constants, label ids and the table of variables run through all bodies. So the code of a body is the
code of its parameters and statements behind the constants and labels of the bodies before it.
-/
namespace StackCompiler

def Chunk.of (code : List Written) : Chunk :=
  ⟨(code.flatMap fun w => w.instruction.encode).toArray,
    (code.flatMap fun w => List.replicate w.instruction.encode.length w.line).toArray⟩

theorem Buffer.finish_writeAll (buffer : Buffer) (code : List Written) :
    (buffer.writeAll code).finish =
      ⟨buffer.bytes ++ (Chunk.of code).bytes, buffer.lines ++ (Chunk.of code).lines⟩ := by
  induction code generalizing buffer with
  | nil => simp [Buffer.writeAll, Buffer.finish, Chunk.of]
  | cons w rest ih =>
      rcases buffer.write_appends w.instruction w.line with ⟨bytes, lines⟩
      have step :
        buffer.writeAll (w :: rest) = (buffer.write w.instruction w.line).writeAll rest := rfl
      rw [step, ih]
      simp [Chunk.of, ← Array.toList_inj, bytes, lines]

theorem Buffer.finish_fresh (capacity step : Nat) (code : List Written) :
    ((Buffer.empty capacity step).writeAll code).finish = Chunk.of code := by
  rw [finish_writeAll, empty_bytes, empty_lines, Array.empty_append, Array.empty_append]

namespace Param
open Lowering

def code (line : Nat) (param : Param) : List Written :=
  param.id.elim [] fun id => indexed line (.store param.ty.kind) id.index

def statics (param : Param) : List StaticVariable :=
  param.id.elim [] fun id => [⟨param.name, param.ty, .ofNat id.index⟩]

def SlotFits (param : Param) : Prop := ∀ id ∈ param.id, id.index < UInt16.size

end Param

namespace Function
open Lowering

def constants (f : Function) : List Constant := f.stmts.flatMap Stmt.constants

def statics (f : Function) : List StaticVariable :=
  f.stored.reverse.flatMap Param.statics ++ f.stmts.flatMap Stmt.statics

def code (base : Nat) (labels : Labels) (f : Function) : List Written :=
  f.stored.reverse.flatMap (Param.code f.line) ++ codeOfStmts base labels f.stmts

def compiled (base : Nat) (labels : Labels) (f : Function) : CompiledFunction :=
  ⟨f.name, f.returns, f.paramTypes, .ofNat (f.id.elim 0 FunId.index),
    if f.isHost then none else some (Chunk.of (f.code base labels))⟩

/-- Nothing is missing that the generator asks of a function. -/
def Ready (f : Function) : Prop :=
  f.id.isSome ∧ (∀ param ∈ f.stored, param.id.isSome) ∧ ∀ s ∈ f.stmts, s.Ready

def SlotFits (f : Function) : Prop :=
  (∀ id ∈ f.id, id.index < UInt16.size) ∧ (∀ param ∈ f.stored, param.SlotFits) ∧
    ∀ s ∈ f.stmts, s.SlotFits

def SlotsFit (f : Function) : Prop :=
  (∀ id ∈ f.id, id.index < UInt16.size) ∧ (∀ param ∈ f.stored, param.SlotFits) ∧
    ∀ s ∈ f.stmts, s.SlotsFit

end Function

namespace Labels

/-- Whether all markers of a body are accepted and every conditional is closed in it. -/
def AllowsBody (labels : Labels) (stmts : List Stmt) : Prop :=
  labels.AllowsAll stmts ∧ (labels.afterAll stmts).depth = 0

def AllowsBodies (labels : Labels) : List (List Stmt) → Prop
  | [] => True
  | stmts :: rest => labels.AllowsBody stmts ∧ (labels.afterAll stmts).AllowsBodies rest

end Labels

def Shared.grown (shared : Shared) (constants : List Constant) (labels : Labels)
    (statics : List StaticVariable) : Shared :=
  ⟨⟨shared.constants.entries ++ constants.toArray⟩, labels, shared.statics ++ statics.toArray⟩

theorem exists_of_isOk {ε α : Type} {answer : Except ε α} (succeeds : answer.isOk = true) :
    ∃ found, answer = .ok found := by
  cases answer with
  | error reason => cases succeeds
  | ok found => exact ⟨found, rfl⟩

namespace Lowering

/-- Every way a pass can end: with a result as described, or with a fault as described. -/
def Yields {α : Type} (answer : Except Fault α) (done : α → Prop) (failed : Fault → Prop) : Prop :=
  match answer with
  | .ok found => done found
  | .error fault => failed fault

section
variable {α β : Type} {answer : Except Fault α} {done weaker : α → Prop}
    {failed other : Fault → Prop}

theorem yields_weaken (yields : Yields answer done failed)
    (results : ∀ found, done found → weaker found)
    (faults : ∀ fault, failed fault → other fault) : Yields answer weaker other := by
  cases answer with
  | ok found => exact results found yields
  | error fault => exact faults fault yields

theorem yields_bind {next : α → Except Fault β} {after : β → Prop}
    (yields : Yields answer done failed) (faults : ∀ fault, failed fault → other fault)
    (rest : ∀ found, done found → Yields (next found) after other) :
    Yields (answer >>= next) after other := by
  cases answer with
  | ok found => exact rest found yields
  | error fault => exact faults fault yields

end

/-- A body ends with the chunk of what its steps wrote, if no conditional is open. -/
theorem body_yields {options : LoweringOptions} {shared : Shared} {steps : Lower Unit}
    {code : List Written} {constants : List Constant} {labels : Labels}
    {statics : List StaticVariable} {holds : Prop} {failed : Fault → Prop}
    (met : Meets steps (start options shared)
      (fun _ t => (∃ line, t =
        ⟨((start options shared).emitter.wrote code constants line).relabel labels,
        shared.statics ++ statics.toArray, .load, 0, 0, 0⟩) ∧ holds) failed) :
    Yields (body options shared steps)
      (fun found => found = (Chunk.of code, shared.grown constants labels statics) ∧ holds ∧
        labels.depth = 0)
      (fun fault => failed fault ∨ fault.IsLimit ∧ labels.depth ≠ 0) := by
  unfold Meets at met
  unfold body
  cases ran : steps (start options shared) with
  | error fault t =>
      rw [ran] at met
      exact Or.inl met
  | ok result t =>
      rw [ran] at met
      obtain ⟨⟨line, rfl⟩, held⟩ := met
      -- Behind the steps only the labels are looked at.
      show Yields (if labels.depth = 0 then _ else _) _ _
      split
      · rename_i closed
        refine ⟨?_, held, closed⟩
        have finished := Buffer.finish_fresh options.initialCapacity options.capacityStep code
        simpa [Emitter.relabel, Emitter.wrote, start, Emitter.start, Lowering.shared,
          Shared.grown] using finished
      · rename_i pending
        exact Or.inr ⟨trivial, pending⟩

theorem store_params (line : Nat) (params : List Param) (emitter : Emitter)
    (statics : Array StaticVariable) (current : emitter.line = line) :
    Meets (params.forM (storeParam line)) ⟨emitter, statics, .load, 0, 0, 0⟩
      (fun _ t => t = ⟨emitter.wrote (params.flatMap (Param.code line)) [] line,
          statics ++ (params.flatMap Param.statics).toArray, .load, 0, 0, 0⟩ ∧
        ∀ param ∈ params, param.SlotFits)
      (fun fault => (∀ param ∈ params, param.id.isSome) →
        fault.IsOverflow ∧ ¬ ∀ param ∈ params, param.SlotFits) := by
  induction params generalizing emitter statics with
  | nil =>
      subst current
      exact ⟨by simp [Emitter.wrote_nothing], by simp⟩
  | cons param rest ih =>
      obtain ⟨name, ty, id⟩ := param
      cases id with
      | none =>
          intro present
          have missing := present _ (List.mem_cons_self ..)
          cases missing
      | some id =>
          apply meets_bind (meets_define emitter statics name ty id)
          · rintro fault ⟨overflow, wide⟩ _
            exact ⟨overflow, fun fits =>
              absurd (fits _ List.mem_cons_self id rfl) (Nat.not_lt.mpr wide)⟩
          rintro _ _ ⟨rfl, below⟩
          apply meets_weaken (ih _ _ (by simpa using current))
          · rintro _ t ⟨rfl, slots⟩
            refine ⟨by simp [Param.code, Param.statics, current], ?_⟩
            simpa [Param.SlotFits] using ⟨below, slots⟩
          · intro fault failed present
            obtain ⟨overflow, wide⟩ := failed fun next member => present next (by simp [member])
            exact ⟨overflow, fun fits => wide fun next member => fits next (by simp [member])⟩

/-- The last argument is on top of the stack, so the parameters are stored from the last one on. -/
theorem prologue_stores (f : Function) (options : LoweringOptions) (shared : Shared) :
    Meets (prologue f) (start options shared)
      (fun _ t =>
        t = ⟨(start options shared).emitter.wrote
            (f.params.reverse.flatMap (Param.code f.line)) [] f.line,
          shared.statics ++ (f.params.reverse.flatMap Param.statics).toArray, .load, 0, 0, 0⟩ ∧
        ∀ param ∈ f.params.reverse, param.SlotFits)
      (fun fault => (∀ param ∈ f.params.reverse, param.id.isSome) →
        fault.IsOverflow ∧ ¬ ∀ param ∈ f.params.reverse, param.SlotFits) := by
  apply meets_run (atLine_run ..)
  apply meets_weaken (store_params f.line _ _ _ rfl)
  · rintro _ t ⟨rfl, slots⟩
    exact ⟨by simp [start], slots⟩
  · exact fun _ failed => failed

theorem function_steps (f : Function) (stmts : List Stmt) (provided : f.body = some stmts)
    (options : LoweringOptions) (shared : Shared) :
    Meets (do
        prologue f
        generator.walkStmts stmts)
      (start options shared)
      (fun _ t => (∃ line, t = ⟨((start options shared).emitter.wrote
            (f.code shared.constants.size shared.labels) f.constants line).relabel
              (shared.labels.afterAll f.stmts),
          shared.statics ++ f.statics.toArray, .load, 0, 0, 0⟩) ∧
        ((shared.constants.size ≤ UInt16.size →
          shared.constants.size + f.constants.length ≤ UInt16.size) ∧
        shared.labels.AllowsAll f.stmts ∧ (∀ param ∈ f.stored, param.SlotFits) ∧
        ∀ s ∈ f.stmts, s.SlotFits))
      (fun fault => (∀ param ∈ f.stored, param.id.isSome) → (∀ s ∈ f.stmts, s.Ready) →
        fault.IsLimit ∧ ¬ (shared.constants.size + f.constants.length ≤ UInt16.size ∧
          shared.labels.AllowsAll f.stmts ∧ (∀ param ∈ f.stored, param.SlotFits) ∧
          ∀ s ∈ f.stmts, s.SlotsFit)) := by
  have own : f.stmts = stmts := by simp [Function.stmts, provided]
  have params : f.stored = f.params := by simp [Function.stored, Function.isHost, provided]
  have members : ∀ {P : Param → Prop}, (∀ param ∈ f.params.reverse, P param) ↔
      ∀ param ∈ f.params, P param := by simp
  unfold Function.code Function.constants Function.statics
  rw [own, params]
  apply meets_bind (prologue_stores f options shared)
  · intro fault failed present _
    obtain ⟨overflow, wide⟩ := failed (members.mpr present)
    exact ⟨overflow_is_limit overflow, fun fits => wide (members.mpr fits.2.2.1)⟩
  rintro _ _ ⟨rfl, slots⟩
  apply meets_weaken (walk_stmts stmts _ _)
  · rintro _ t ⟨⟨line, rfl⟩, bound, allowed, declared⟩
    refine ⟨⟨line, ?_⟩, ?_, allowed, members.mp slots, declared⟩
    · simp [start, Emitter.start]
    · simpa [start, Emitter.start] using bound
  · intro fault failed _ ready
    obtain ⟨limit, wide⟩ := failed ready
    refine ⟨limit, ?_⟩
    rintro ⟨room, allowed, _, fits⟩
    refine wide ⟨?_, allowed, fits⟩
    simpa [start, Emitter.start] using room

theorem top_level_steps (stmts : List Stmt) (options : LoweringOptions) :
    Meets (generator.walkStmts stmts) (start options ⟨.empty, .empty options.labelLimit, #[]⟩)
      (fun _ t => (∃ line, t =
        ⟨((start options ⟨.empty, .empty options.labelLimit, #[]⟩).emitter.wrote
            (codeOfStmts 0 (.empty options.labelLimit) stmts) (stmts.flatMap Stmt.constants)
            line).relabel ((Labels.empty options.labelLimit).afterAll stmts),
          #[] ++ (stmts.flatMap Stmt.statics).toArray, .load, 0, 0, 0⟩) ∧
        ((stmts.flatMap Stmt.constants).length ≤ UInt16.size ∧
        (Labels.empty options.labelLimit).AllowsAll stmts ∧ ∀ s ∈ stmts, s.SlotFits))
      (fun fault => (∀ s ∈ stmts, s.Ready) → fault.IsLimit ∧
        ¬ ((stmts.flatMap Stmt.constants).length ≤ UInt16.size ∧
          (Labels.empty options.labelLimit).AllowsAll stmts ∧ ∀ s ∈ stmts, s.SlotsFit)) := by
  apply meets_weaken (walk_stmts stmts _ _)
  · rintro _ t ⟨ran, bound, holds⟩
    exact ⟨ran, by simpa [Emitter.start, ConstantPool.empty, ConstantPool.size] using bound, holds⟩
  · intro fault failed ready
    obtain ⟨limit, wide⟩ := failed ready
    refine ⟨limit, ?_⟩
    rintro ⟨room, holds⟩
    refine wide ⟨?_, holds⟩
    simpa [Emitter.start, ConstantPool.empty, ConstantPool.size] using room

theorem slot_yields (index : Nat) (table : String) :
    Yields (slotOf index table) (fun slot => slot = .ofNat index ∧ index < UInt16.size)
      (fun fault => fault.IsOverflow ∧ UInt16.size ≤ index) := by
  unfold slotOf
  by_cases wide : UInt16.size ≤ index
  · rw [if_pos wide]
    exact ⟨⟨_, _, rfl⟩, wide⟩
  · rw [if_neg wide]
    exact ⟨rfl, Nat.lt_of_not_le wide⟩

theorem function_yields (f : Function) (options : LoweringOptions) (shared : Shared)
    (idle : shared.labels.depth = 0) :
    Yields (function options shared f)
      (fun found => found = (f.compiled shared.constants.size shared.labels,
          shared.grown f.constants (shared.labels.afterAll f.stmts) f.statics) ∧
        (shared.constants.size ≤ UInt16.size →
          shared.constants.size + f.constants.length ≤ UInt16.size) ∧
        shared.labels.AllowsBody f.stmts ∧ f.SlotFits)
      (fun fault => f.Ready → fault.IsLimit ∧
        ¬ (shared.constants.size + f.constants.length ≤ UInt16.size ∧
          shared.labels.AllowsBody f.stmts ∧ f.SlotsFit)) := by
  unfold function
  split
  · rename_i missing
    exact fun ready => absurd ready.1 (by simp [missing])
  rename_i id known
  have own : ∀ {P : FunId → Prop}, P id → ∀ found ∈ f.id, P found := by
    intro P holds found member
    rw [known] at member
    exact Option.some.inj member ▸ holds
  split
  · rename_i host
    have none : f.stmts = [] := by simp [Function.stmts, host]
    have bare : f.stored = [] := by simp [Function.stored, Function.isHost, host]
    apply yields_bind (slot_yields id.index "function")
    · rintro fault ⟨overflow, wide⟩ _
      exact ⟨overflow_is_limit overflow, fun fits =>
        absurd (fits.2.2.1 id known) (Nat.not_lt.mpr wide)⟩
    rintro _ ⟨rfl, below⟩
    refine ⟨?_, by simp [Function.constants, none], ?_, own below, by simp [bare], by simp [none]⟩
    · simp [Function.compiled, Function.constants, Function.statics, Shared.grown, none,
        bare, known, Function.isHost, host, Labels.afterAll]
    · simpa [none, Labels.AllowsBody, Labels.AllowsAll, Labels.afterAll] using idle
  · rename_i stmts provided
    apply yields_bind (body_yields (function_steps f stmts provided options shared))
    · rintro fault (failed | ⟨limit, opened⟩) ⟨_, params, ready⟩
      · obtain ⟨limit, wide⟩ := failed params ready
        refine ⟨limit, ?_⟩
        rintro ⟨room, allowed, slots⟩
        exact wide ⟨room, allowed.1, slots.2⟩
      · exact ⟨limit, fun fits => opened fits.2.1.2⟩
    rintro ⟨code, after⟩ ⟨same, ⟨bound, allowed, slots⟩, closed⟩
    cases same
    apply yields_bind (slot_yields id.index "function")
    · rintro fault ⟨overflow, wide⟩ _
      exact ⟨overflow_is_limit overflow, fun fits =>
        absurd (fits.2.2.1 id known) (Nat.not_lt.mpr wide)⟩
    rintro _ ⟨rfl, below⟩
    refine ⟨?_, bound, ⟨allowed, closed⟩, own below, slots⟩
    simp [Function.compiled, known, Function.isHost, provided]

def compiledFunctions (base : Nat) (labels : Labels) : List Function → List CompiledFunction
  | [] => []
  | f :: rest => f.compiled base labels ::
      compiledFunctions (base + f.constants.length) (labels.afterAll f.stmts) rest

theorem compiledFunctions_map {β : Type} {part : CompiledFunction → β} {source : Function → β}
    (one : ∀ (f : Function) base labels, part (f.compiled base labels) = source f) (base : Nat)
    (labels : Labels) (fs : List Function) :
    (compiledFunctions base labels fs).map part = fs.map source := by
  induction fs generalizing base labels with
  | nil => rfl
  | cons f rest ih => rw [compiledFunctions, List.map_cons, List.map_cons, one, ih]

theorem functions_yields (fs : List Function) (options : LoweringOptions) (shared : Shared)
    (compiled : Array CompiledFunction) (idle : shared.labels.depth = 0) :
    Yields (fs.foldlM (fun (compiled, shared) f => do
        let (next, shared) ← function options shared f
        return (compiled.push next, shared)) (compiled, shared))
      (fun found => found.1 = compiled ++
        (compiledFunctions shared.constants.size shared.labels fs).toArray ∧
        found.2.constants.entries =
          shared.constants.entries ++ (fs.flatMap Function.constants).toArray ∧
        found.2.statics = shared.statics ++ (fs.flatMap Function.statics).toArray ∧
        (shared.constants.size ≤ UInt16.size →
          shared.constants.size + (fs.flatMap Function.constants).length ≤ UInt16.size) ∧
        shared.labels.AllowsBodies (fs.map Function.stmts) ∧ ∀ f ∈ fs, f.SlotFits)
      (fun fault => (∀ f ∈ fs, f.Ready) → fault.IsLimit ∧
        ¬ (shared.constants.size + (fs.flatMap Function.constants).length ≤ UInt16.size ∧
          shared.labels.AllowsBodies (fs.map Function.stmts) ∧ ∀ f ∈ fs, f.SlotsFit)) := by
  induction fs generalizing shared compiled with
  | nil => exact ⟨by simp [compiledFunctions], by simp, by simp, by simp, trivial, by simp⟩
  | cons f rest ih =>
      rw [List.foldlM_cons, bind_assoc]
      apply yields_bind (function_yields f options shared idle)
      · intro fault failed ready
        obtain ⟨limit, wide⟩ := failed (ready f List.mem_cons_self)
        refine ⟨limit, ?_⟩
        rintro ⟨room, allowed, slots⟩
        refine wide ⟨?_, allowed.1, slots f List.mem_cons_self⟩
        simp only [List.flatMap_cons, List.length_append] at room
        omega
      rintro _ ⟨rfl, bound, allowed, slots⟩
      rw [pure_bind]
      have size :
          (shared.grown f.constants (shared.labels.afterAll f.stmts) f.statics).constants.size =
            shared.constants.size + f.constants.length := by
        simp [Shared.grown, ConstantPool.size]
      -- The next body starts with no conditional open because this one has closed its own.
      apply yields_weaken (ih _ _ allowed.2)
      · rintro ⟨found, after⟩ ⟨code, entries, statics, restBound, restAllowed, restSlots⟩
        rw [size] at code restBound
        refine ⟨?_, ?_, ?_, ?_, ⟨allowed, restAllowed⟩, by simpa using ⟨slots, restSlots⟩⟩
        · rw [code]
          simp [compiledFunctions, Shared.grown]
        · rw [entries]
          simp [Shared.grown, Array.append_assoc]
        · rw [statics]
          simp [Shared.grown, Array.append_assoc]
        · simp only [List.flatMap_cons, List.length_append]
          omega
      · intro fault failed ready
        obtain ⟨limit, wide⟩ :=
          failed fun next member => ready next (List.mem_cons_of_mem _ member)
        refine ⟨limit, ?_⟩
        rintro ⟨room, ⟨_, restAllowed⟩, fits⟩
        refine wide ⟨?_, restAllowed, ?_⟩
        · simp only [List.flatMap_cons, List.length_append, size] at room ⊢
          omega
        · exact fun next member => fits next (List.mem_cons_of_mem _ member)

end Lowering

namespace Program
open Lowering

def constants (p : Program) : List Constant := p.bodies.flatten.flatMap Stmt.constants

def statics (p : Program) : List StaticVariable :=
  p.statements.flatMap Stmt.statics ++ p.functions.flatMap Function.statics

def Ready (p : Program) : Prop :=
  (∀ s ∈ p.statements, s.Ready) ∧ ∀ f ∈ p.functions, f.Ready

def SlotsFit (p : Program) : Prop :=
  (∀ s ∈ p.statements, s.SlotsFit) ∧ ∀ f ∈ p.functions, f.SlotsFit

def executable (p : Program) (labels : Labels) : Executable :=
  ⟨Chunk.of (codeOfStmts 0 labels p.statements), ⟨p.constants.toArray⟩,
    p.statics.mergeSort fun a b => a.slot ≤ b.slot,
    compiledFunctions (p.statements.flatMap Stmt.constants).length (labels.afterAll p.statements)
      p.functions⟩

theorem constants_eq (p : Program) :
    p.constants = p.statements.flatMap Stmt.constants ++
      p.functions.flatMap Function.constants := by
  simp only [constants, bodies, List.flatten_cons, List.flatMap_append, ← List.flatMap_def,
    List.flatMap_assoc]
  rfl

/-- Code generation either gives the executable, and then no limit was exceeded, or fails; and on a
program in which nothing is missing it fails only where a limit is exceeded. -/
theorem lower_yields (p : Program) (options : LoweringOptions) :
    Yields (p.lower options)
      (fun exe => exe = p.executable (.empty options.labelLimit) ∧
        p.constants.length ≤ UInt16.size ∧
        (Labels.empty options.labelLimit).AllowsBodies p.bodies ∧
        (∀ s ∈ p.statements, s.SlotFits) ∧ ∀ f ∈ p.functions, f.SlotFits)
      (fun fault => p.Ready → fault.IsLimit ∧
        ¬ (p.constants.length ≤ UInt16.size ∧
          (Labels.empty options.labelLimit).AllowsBodies p.bodies ∧ p.SlotsFit)) := by
  have entries := p.constants_eq
  unfold lower
  apply yields_bind (body_yields (top_level_steps p.statements options))
  · rintro fault (failed | ⟨limit, opened⟩) ready
    · obtain ⟨limit, wide⟩ := failed ready.1
      refine ⟨limit, ?_⟩
      rintro ⟨room, allowed, slots⟩
      refine wide ⟨?_, allowed.1.1, slots.1⟩
      simp only [entries, List.length_append] at room
      omega
    · exact ⟨limit, fun fits => opened fits.2.1.1.2⟩
  rintro ⟨code, after⟩ ⟨same, ⟨bound, allowed, slots⟩, closed⟩
  cases same
  have size : (Shared.grown ⟨.empty, .empty options.labelLimit, #[]⟩
      (p.statements.flatMap Stmt.constants)
      ((Labels.empty options.labelLimit).afterAll p.statements)
      (p.statements.flatMap Stmt.statics)).constants.size =
        (p.statements.flatMap Stmt.constants).length := by
    simp [Shared.grown, ConstantPool.size, ConstantPool.empty]
  apply yields_bind (functions_yields p.functions options _ #[] closed)
  · intro fault failed ready
    obtain ⟨limit, wide⟩ := failed ready.2
    refine ⟨limit, ?_⟩
    rintro ⟨room, allowed, fits⟩
    refine wide ⟨?_, allowed.2, fits.2⟩
    rw [size]
    simpa [entries] using room
  rintro ⟨compiled, after⟩ ⟨rfl, constants, statics, restBound, restAllowed, restSlots⟩
  rw [size] at restBound
  refine ⟨?_, ?_, ⟨⟨allowed, closed⟩, restAllowed⟩, slots, restSlots⟩
  · obtain ⟨⟨pool⟩, labels, table⟩ := after
    have pooled : pool = p.constants.toArray := by
      simpa [Shared.grown, ConstantPool.empty, entries] using constants
    have tabled : table = p.statics.toArray := by
      simpa [Shared.grown, Program.statics] using statics
    rw [size]
    simp [executable, pooled, tabled, Shared.grown]
  · rw [entries, List.length_append]
    exact restBound bound

end Program
end StackCompiler
