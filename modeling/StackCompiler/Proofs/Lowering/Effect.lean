import StackCompiler.Lowering.Expr
import StackCompiler.Proofs.Code.Buffer

/-!
What the steps of code generation do to its state.

A step that succeeds appends instructions and constants, takes over a line and moves a counter. Each
is described here by one equation on a state written out, so that nothing later opens a buffer or a
monad.
-/
namespace StackCompiler

structure Written where
  line : Nat
  instruction : Instruction
deriving DecidableEq, Repr

def Buffer.writeAll (buffer : Buffer) (code : List Written) : Buffer :=
  code.foldl (fun buffer w => buffer.write w.instruction w.line) buffer

/-- The emitter after code and constants were appended and `line` became the current line. -/
def Emitter.wrote (emitter : Emitter) (code : List Written) (constants : List Constant)
    (line : Nat) :
    Emitter :=
  ⟨emitter.buffer.writeAll code, ⟨emitter.constants.entries ++ constants.toArray⟩,
    emitter.labels, line⟩

section
variable {σ α : Type}

theorem modify_run (change : σ → σ) (s : σ) :
    (modify change : EStateM Fault σ Unit) s = .ok () (change s) := rfl

theorem modifyGet_run (change : σ → α × σ) (s : σ) :
    (modifyGet change : EStateM Fault σ α) s = .ok (change s).1 (change s).2 := rfl

theorem throw_run (fault : Fault) (s : σ) :
    (throw fault : EStateM Fault σ α) s = .error fault s := rfl

end

namespace Emitter

variable (emitter : Emitter) (code more : List Written) (constants others : List Constant)
  (line next : Nat)

@[simp] theorem wrote_line : (emitter.wrote code constants line).line = line := rfl

@[simp] theorem wrote_labels : (emitter.wrote code constants line).labels = emitter.labels := rfl

@[simp] theorem wrote_size : (emitter.wrote code constants line).constants.size =
    emitter.constants.size + constants.length := by
  simp [wrote, ConstantPool.size]

@[simp] theorem wrote_wrote : (emitter.wrote code constants line).wrote more others next =
    emitter.wrote (code ++ more) (constants ++ others) next := by
  simp [wrote, Buffer.writeAll, Array.append_assoc]

theorem wrote_nothing : emitter.wrote [] [] emitter.line = emitter := by
  simp [wrote, Buffer.writeAll]

theorem write_run {opcode : Opcode} {operands : List UInt16}
    (formed : operands.length = opcode.arity) :
    write opcode operands emitter =
      .ok () (emitter.wrote [⟨emitter.line, ⟨opcode, operands⟩⟩] [] emitter.line) := by
  have same : Instruction.Formed ⟨opcode, operands⟩ := formed
  simp [write, same, modify_run, emitter.buffer.write?_formed same, wrote, Buffer.writeAll]

theorem write_refused {opcode : Opcode} {operands : List UInt16}
    (malformed : operands.length ≠ opcode.arity) :
    write opcode operands emitter = .error (.operandCount opcode operands.length) emitter := by
  have other : ¬ Instruction.Formed ⟨opcode, operands⟩ := malformed
  rw [write, dif_neg other, throw_run]

theorem write_ran {opcode : Opcode} {operands : List UInt16} {after : Emitter}
    (ran : write opcode operands emitter = .ok () after) :
    operands.length = opcode.arity ∧
      after = emitter.wrote [⟨emitter.line, ⟨opcode, operands⟩⟩] [] emitter.line := by
  by_cases formed : operands.length = opcode.arity
  · rw [emitter.write_run formed] at ran
    cases ran
    exact ⟨formed, rfl⟩
  · rw [emitter.write_refused formed] at ran
    cases ran

theorem writeIndexed_outcome (opcode : Opcode) (index : Nat) (table : String) :
    writeIndexed opcode index table emitter =
      if UInt16.size ≤ index then .error (.indexOverflow table index) emitter
      else write opcode [.ofNat index] emitter := by
  by_cases wide : UInt16.size ≤ index
  · simp [writeIndexed, wide, bind, EStateM.bind, throw_run]
  · simp [writeIndexed, wide]

/-- A literal keeps the constant it added even if the index does not fit. -/
theorem literal_outcome {opcode : Opcode} (indexed : opcode.arity = 1) (constant : Constant) :
    (do writeIndexed opcode (← addConstant constant) "constant" : Emit Unit) emitter =
      if UInt16.size ≤ emitter.constants.size then
        .error (.indexOverflow "constant" emitter.constants.size)
          (emitter.wrote [] [constant] emitter.line)
      else
        .ok () (emitter.wrote [⟨emitter.line, ⟨opcode, [.ofNat emitter.constants.size]⟩⟩]
          [constant] emitter.line) := by
  have added : addConstant constant emitter =
      .ok emitter.constants.size (emitter.wrote [] [constant] emitter.line) := by
    simp [addConstant, modifyGet_run, ConstantPool.push, wrote, Buffer.writeAll]
  have formed : [UInt16.ofNat emitter.constants.size].length = opcode.arity := indexed.symm
  simp only [bind, EStateM.bind, added]
  rw [writeIndexed_outcome, write_run _ formed, wrote_wrote]
  rfl

end Emitter

def Answered {α : Type} (answer : Except Fault α) : Prop := ∃ found, answer = .ok found

def Fault.IsOverflow (fault : Fault) : Prop := ∃ table index, fault = .indexOverflow table index

namespace Lowering

variable {α β : Type} {s t : Lowering}

theorem bind_run {step : Lower α} {next : α → Lower β} {result : α} (runs : step s = .ok result t) :
    (step >>= next) s = next result t := by
  simp only [bind, EStateM.bind, runs]

/-- Every way a step can end: with a state and result as described, or with a fault as described. -/
def Meets (step : Lower α) (s : Lowering) (done : α → Lowering → Prop) (failed : Fault → Prop) :
    Prop :=
  match step s with
  | .ok result t => done result t
  | .error fault _ => failed fault

theorem meets_done {step : Lower α} {result : α} {done : α → Lowering → Prop}
    {failed : Fault → Prop} (runs : step s = .ok result t) (holds : done result t) :
    Meets step s done failed := by
  rwa [Meets, runs]

theorem meets_failed {step : Lower α} {fault : Fault} {done : α → Lowering → Prop}
    {failed : Fault → Prop} (stops : step s = .error fault t) (holds : failed fault) :
    Meets step s done failed := by
  rwa [Meets, stops]

theorem meets_weaken {step : Lower α} {done weaker : α → Lowering → Prop}
    {failed other : Fault → Prop} (met : Meets step s done failed)
    (results : ∀ result t, done result t → weaker result t)
    (faults : ∀ fault, failed fault → other fault) : Meets step s weaker other := by
  unfold Meets at *
  split at met
  · exact results _ _ met
  · exact faults _ met

theorem meets_bind {step : Lower α} {next : α → Lower β} {middle : α → Lowering → Prop}
    {done : β → Lowering → Prop} {first failed : Fault → Prop}
    (met : Meets step s middle first) (faults : ∀ fault, first fault → failed fault)
    (rest : ∀ result t, middle result t → Meets (next result) t done failed) :
    Meets (step >>= next) s done failed := by
  simp only [Meets, bind, EStateM.bind] at met ⊢
  split at met
  · rename_i runs
    simpa only [runs, Meets] using rest _ _ met
  · rename_i stops
    simpa only [stops] using faults _ met

theorem meets_run {step : Lower α} {next : α → Lower β} {result : α}
    {done : β → Lowering → Prop} {failed : Fault → Prop} (runs : step s = .ok result t)
    (rest : Meets (next result) t done failed) :
    Meets (step >>= next) s done failed := by
  rwa [Meets, bind_run runs]

theorem get_run (s : Lowering) : (get : Lower Lowering) s = .ok s s := rfl

theorem meets_demand {α : Type} (answer : Except Fault α) (s : Lowering) :
    Meets (demand answer) s (fun found t => answer = .ok found ∧ t = s)
      (fun _ => ¬ Answered answer) := by
  cases answer with
  | ok found => exact ⟨rfl, rfl⟩
  | error fault => exact fun ⟨_, found⟩ => by cases found

section Steps
variable (emitter : Emitter) (statics : Array StaticVariable) (mode : Mode)
  (assigns calls values : Nat)

@[simp] theorem atLine_run (line : Nat) :
    atLine line ⟨emitter, statics, mode, assigns, calls, values⟩ =
      .ok () ⟨emitter.wrote [] [] line, statics, mode, assigns, calls, values⟩ := by
  simp [atLine, emitting, Emitter.atLine, modify_run, Emitter.wrote, Buffer.writeAll]

theorem emit_run {opcode : Opcode} (plain : opcode.arity = 0) :
    emit opcode ⟨emitter, statics, mode, assigns, calls, values⟩ =
      .ok () ⟨emitter.wrote [⟨emitter.line, ⟨opcode, []⟩⟩] [] emitter.line,
        statics, mode, assigns, calls, values⟩ := by
  have formed : ([] : List UInt16).length = opcode.arity := plain.symm
  simp [emit, emitting, Emitter.emit, emitter.write_run formed]

theorem writeIndexed_run {opcode : Opcode} (indexed : opcode.arity = 1) (index : Nat)
    (table : String) :
    emitting (Emitter.writeIndexed opcode index table)
        ⟨emitter, statics, mode, assigns, calls, values⟩ =
      if UInt16.size ≤ index then
        .error (.indexOverflow table index) ⟨emitter, statics, mode, assigns, calls, values⟩
      else
        .ok () ⟨emitter.wrote [⟨emitter.line, ⟨opcode, [.ofNat index]⟩⟩] [] emitter.line,
          statics, mode, assigns, calls, values⟩ := by
  have formed : [UInt16.ofNat index].length = opcode.arity := indexed.symm
  rw [emitting, Emitter.writeIndexed_outcome, emitter.write_run formed]
  by_cases wide : UInt16.size ≤ index <;> simp only [wide, ↓reduceIte]

theorem pushConstant_run {opcode : Opcode} (indexed : opcode.arity = 1) (constant : Constant) :
    emitting (do Emitter.writeIndexed opcode (← Emitter.addConstant constant) "constant")
        ⟨emitter, statics, mode, assigns, calls, values⟩ =
      if UInt16.size ≤ emitter.constants.size then
        .error (.indexOverflow "constant" emitter.constants.size)
          ⟨emitter.wrote [] [constant] emitter.line, statics, mode, assigns, calls, values⟩
      else .ok () ⟨emitter.wrote
        [⟨emitter.line, ⟨opcode, [.ofNat emitter.constants.size]⟩⟩] [constant]
        emitter.line, statics, mode, assigns, calls, values⟩ := by
  rw [emitting, Emitter.literal_outcome _ indexed]
  by_cases wide : UInt16.size ≤ emitter.constants.size <;> simp only [wide, ↓reduceIte]

end Steps

end Lowering
end StackCompiler
