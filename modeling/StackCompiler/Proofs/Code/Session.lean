import StackCompiler.Proofs.Lowering.Chunks

/-!
Decoding undoes emitting, whatever is emitted.

Any calls in any order, refused or not, leave a chunk that decodes to the instructions of the calls
that were not refused. A refused call leaves no byte; a literal then still keeps the constant that
it added.
-/
namespace StackCompiler

theorem Buffer.writeAll_append (buffer : Buffer) (code more : List Written) :
    buffer.writeAll (code ++ more) = (buffer.writeAll code).writeAll more :=
  List.foldl_append

theorem Buffer.writeAll_grown {start : Nat} {buffer : Buffer} (grown : buffer.Grown start)
    (code : List Written) : (buffer.writeAll code).Grown start := by
  induction code generalizing buffer with
  | nil => exact grown
  | cons w rest ih => exact ih (write_grown grown w.instruction w.line)

namespace Emitter

inductive Call
  | setLine (line : Nat)
  | emit (opcode : Opcode)
  | emitWith (opcode : Opcode) (operands : List UInt16)
  | emitIndex (opcode : Opcode) (index : Nat) (table : String)
  | int (value : Int32)
  | double (value : Double)
  | bool (value : Bool)
  | beginConditional
  | endConditional
deriving DecidableEq, Repr

end Emitter

def Instruction.refusal? (i : Instruction) : Option Fault :=
  if i.operands.length = i.opcode.arity then none
    else some (.operandCount i.opcode i.operands.length)

namespace Emitter.Call

def perform : Call → Emit Unit
  | setLine line => atLine line
  | emit opcode => Emitter.emit opcode
  | emitWith opcode operands => write opcode operands
  | emitIndex opcode index table => writeIndexed opcode index table
  | int value => pushInt value
  | double value => pushDouble value
  | bool value => pushBool value
  | beginConditional => discard jumpAhead
  | endConditional => discard land

/-- The instruction a call asks for. A literal takes the next constant; a conditional begins with
the next label and ends with the innermost pending one. -/
def instruction? (e : Emitter) : Call → Option Instruction
  | setLine _ => none
  | emit opcode => some ⟨opcode, []⟩
  | emitWith opcode operands => some ⟨opcode, operands⟩
  | emitIndex opcode index _ => some ⟨opcode, [.ofNat index]⟩
  | int _ | bool _ => some ⟨.push .int, [.ofNat e.constants.size]⟩
  | double _ => some ⟨.push .double, [.ofNat e.constants.size]⟩
  | beginConditional => some ⟨.goto, [.ofNat e.labels.issued]⟩
  | endConditional => e.labels.pending.back?.map fun id => ⟨.label, [id]⟩

/-- Why a call is refused. -/
def refusal? (e : Emitter) : Call → Option Fault
  | setLine _ => none
  | emit opcode => Instruction.refusal? ⟨opcode, []⟩
  | emitWith opcode operands => Instruction.refusal? ⟨opcode, operands⟩
  | emitIndex opcode index table =>
      if UInt16.size ≤ index then some (.indexOverflow table index)
      else Instruction.refusal? ⟨opcode, [.ofNat index]⟩
  | int _ | double _ | bool _ =>
      if UInt16.size ≤ e.constants.size
        then some (.indexOverflow "constant" e.constants.size) else none
  | beginConditional =>
      if e.labels.limit ≤ e.labels.depth then some (.labelOverflow e.labels.limit)
      else if UInt16.size ≤ e.labels.issued then some (.indexOverflow "label" e.labels.issued)
      else none
  | endConditional => if e.labels.depth = 0 then some .labelUnderflow else none

def constants : Call → List Constant
  | int value => [.int value]
  | double value => [.double value]
  | bool value => [.int (if value then 1 else 0)]
  | _ => []

def line (before : Nat) : Call → Nat
  | setLine next => next
  | _ => before

def labels (before : Labels) : Call → Labels
  | beginConditional =>
      ⟨before.issued + 1, before.pending.push (.ofNat before.issued), before.limit⟩
  | endConditional => ⟨before.issued, before.pending.pop, before.limit⟩
  | _ => before

def code (e : Emitter) (call : Call) : List Written :=
  (call.instruction? e).toList.map fun i => ⟨e.line, i⟩

end Emitter.Call

namespace Emitter
open Call

theorem write_outcome (opcode : Opcode) (operands : List UInt16) (e : Emitter) :
    write opcode operands e =
      match Instruction.refusal? ⟨opcode, operands⟩ with
      | none => .ok () (e.wrote [⟨e.line, ⟨opcode, operands⟩⟩] [] e.line)
      | some fault => .error fault e := by
  by_cases formed : operands.length = opcode.arity
  · rw [e.write_run formed, Instruction.refusal?, if_pos formed]
  · rw [e.write_refused formed, Instruction.refusal?, if_neg formed]

theorem relabel_own (e : Emitter) (code : List Written) (constants : List Constant) (line : Nat) :
    (e.wrote code constants line).relabel e.labels = e.wrote code constants line := rfl

theorem literal_performs {call : Call} {kind : Kind} {constant : Constant} (e : Emitter)
    (same : call.perform = do writeIndexed (.push kind) (← addConstant constant) "constant")
    (asks : call.instruction? e = some ⟨.push kind, [.ofNat e.constants.size]⟩)
    (refuses : call.refusal? e =
      if UInt16.size ≤ e.constants.size then some (.indexOverflow "constant" e.constants.size)
        else none)
    (adds : call.constants = [constant]) (here : call.line e.line = e.line)
    (still : call.labels e.labels = e.labels) :
    call.perform e =
      match call.refusal? e with
      | none =>
          .ok () ((e.wrote (call.code e) call.constants (call.line e.line)).relabel
            (call.labels e.labels))
      | some fault => .error fault (e.wrote [] call.constants (call.line e.line)) := by
  rw [same, e.literal_outcome rfl, refuses, adds, here, still, relabel_own, code, asks]
  by_cases wide : UInt16.size ≤ e.constants.size
  · simp only [wide, ↓reduceIte]
  · simp only [wide, ↓reduceIte]
    rfl

theorem discard_outcome {α : Type} (step : Emit α) (e : Emitter) :
    (discard step) e =
      match step e with
      | .ok _ left => .ok () left
      | .error fault left => .error fault left := by
  show EStateM.map (fun _ => ()) step e = _
  unfold EStateM.map
  cases step e <;> rfl

theorem begin_performs (e : Emitter) :
    beginConditional.perform e =
      match beginConditional.refusal? e with
      | none =>
          .ok () ((e.wrote (beginConditional.code e) [] e.line).relabel
            (beginConditional.labels e.labels))
      | some fault => .error fault (e.wrote [] [] e.line) := by
  rw [perform, discard_outcome, jumpAhead, marker_outcome rfl, Labels.issue_outcome, refusal?]
  by_cases deep : e.labels.limit ≤ e.labels.depth
  · simp only [deep, ↓reduceIte]
    rfl
  by_cases wide : UInt16.size ≤ e.labels.issued
  · simp only [deep, wide, ↓reduceIte]
    rfl
  · simp only [deep, wide, ↓reduceIte]
    rfl

theorem end_performs (e : Emitter) :
    endConditional.perform e =
      match endConditional.refusal? e with
      | none =>
          .ok () ((e.wrote (endConditional.code e) [] e.line).relabel
            (endConditional.labels e.labels))
      | some fault => .error fault (e.wrote [] [] e.line) := by
  rw [perform, discard_outcome, land, marker_outcome rfl, Labels.resolve_outcome, refusal?]
  cases top : e.labels.pending.back? with
  | none =>
      have idle : e.labels.depth = 0 := by simpa [Labels.depth] using top
      rw [if_pos idle]
      rfl
  | some id =>
      have filled : ¬ e.labels.depth = 0 := by
        intro idle
        rw [Array.eq_empty_of_size_eq_zero idle] at top
        cases top
      rw [if_neg filled, code, instruction?, top]
      rfl

/-- How a call ends and what it leaves behind. -/
theorem perform_outcome (call : Call) (e : Emitter) :
    call.perform e =
      match call.refusal? e with
      | none =>
          .ok () ((e.wrote (call.code e) call.constants (call.line e.line)).relabel
            (call.labels e.labels))
      | some fault => .error fault (e.wrote [] call.constants (call.line e.line)) := by
  cases call with
  | setLine line =>
      rw [perform, atLine, modify_run, refusal?, code, instruction?, wrote]
      rfl
  | emit opcode => exact write_outcome opcode [] e
  | emitWith opcode operands => exact write_outcome opcode operands e
  | emitIndex opcode index table =>
      by_cases wide : UInt16.size ≤ index
      · simp [perform, refusal?, wide, writeIndexed_outcome, wrote_nothing, Call.constants,
          Call.line]
      · simp only [perform, refusal?, wide, writeIndexed_outcome, ↓reduceIte]
        exact write_outcome opcode _ e
  | int value | double value | bool value => exact literal_performs e rfl rfl rfl rfl rfl rfl
  | beginConditional => exact begin_performs e
  | endConditional => exact end_performs e

structure Turn where
  emitter : Emitter
  call : Call

namespace Turn

def report (turn : Turn) : Option Fault :=
  match turn.call.perform turn.emitter with
  | .ok _ _ => none
  | .error fault _ => some fault

/-- The emitter behind the call, refused or not. -/
def after (turn : Turn) : Emitter :=
  match turn.call.perform turn.emitter with
  | .ok _ left => left
  | .error _ left => left

/-- What a turn adds to the code: nothing if the call was refused. -/
def written (turn : Turn) : List Written :=
  if turn.report = none then turn.call.code turn.emitter else []

/-- A turn ends as the call and the emitter say. What it writes finds room for each of its bytes,
and a refused call leaves the code and the labels alone. -/
structure Expected (turn : Turn) : Prop where
  report : turn.report = turn.call.refusal? turn.emitter
  line : turn.after.line = turn.call.line turn.emitter.line
  constants : turn.after.constants.entries.toList =
    turn.emitter.constants.entries.toList ++ turn.call.constants
  labels : turn.after.labels =
    if turn.report = none then turn.call.labels turn.emitter.labels else turn.emitter.labels
  fits :
    ∀ w ∈ turn.written, turn.emitter.buffer.write? w.instruction w.line = some turn.after.buffer
  refused : turn.report ≠ none → turn.after.buffer = turn.emitter.buffer

theorem report_eq (turn : Turn) : turn.report = turn.call.refusal? turn.emitter := by
  rw [report, perform_outcome]
  cases turn.call.refusal? turn.emitter <;> rfl

theorem after_eq (turn : Turn) :
    turn.after = (turn.emitter.wrote turn.written turn.call.constants
      (turn.call.line turn.emitter.line)).relabel
        (if turn.report = none then turn.call.labels turn.emitter.labels
          else turn.emitter.labels) := by
  rw [written, report_eq, after, perform_outcome]
  cases turn.call.refusal? turn.emitter <;> rfl

theorem accepted_formed {e : Emitter} {call : Call} (accepted : call.refusal? e = none) :
    ∀ i ∈ call.instruction? e, i.Formed := by
  have plain : ∀ i : Instruction, i.refusal? = none → i.Formed := by
    intro i taken
    by_cases formed : i.operands.length = i.opcode.arity
    · exact formed
    · rw [Instruction.refusal?, if_neg formed] at taken
      cases taken
  cases call with
  | setLine line => nofun
  | emit opcode =>
      rintro _ ⟨⟩
      exact plain _ accepted
  | emitWith opcode operands =>
      rintro _ ⟨⟩
      exact plain _ accepted
  | emitIndex opcode index table =>
      rintro _ ⟨⟩
      by_cases wide : UInt16.size ≤ index
      · rw [refusal?, if_pos wide] at accepted
        cases accepted
      · rw [refusal?, if_neg wide] at accepted
        exact plain _ accepted
  | int | double | bool | beginConditional =>
      rintro _ ⟨⟩
      rfl
  | endConditional =>
      intro i asked
      rcases Option.map_eq_some_iff.mp asked with ⟨id, _, rfl⟩
      rfl

theorem written_formed (turn : Turn) : Formed turn.written := by
  rcases turn with ⟨e, call⟩
  rw [written, report_eq]
  split
  · rename_i accepted
    intro w member
    rcases List.mem_map.mp member with ⟨i, asked, rfl⟩
    exact accepted_formed accepted i (Option.mem_toList.mp asked)
  · exact List.forall_mem_nil _

theorem after_buffer (turn : Turn) :
    turn.after.buffer = turn.emitter.buffer.writeAll turn.written := by
  rw [after_eq]
  rfl

theorem written_single {turn : Turn} {w : Written} (wrote : w ∈ turn.written) :
    turn.written = [w] := by
  rw [written] at wrote ⊢
  split at wrote
  · rw [if_pos ‹_›, code]
    rcases List.mem_map.mp wrote with ⟨i, asked, rfl⟩
    rw [Option.mem_toList.mp asked]
    rfl
  · cases wrote

theorem expected (turn : Turn) : turn.Expected := by
  constructor
  · exact turn.report_eq
  · rw [after_eq]
    rfl
  · rw [after_eq]
    simp [wrote]
  · rw [after_eq]
    rfl
  · intro w wrote
    rw [after_buffer, written_single wrote]
    exact Buffer.write?_formed _ (turn.written_formed w wrote) _
  · intro refused
    rw [after_eq, written, if_neg refused]
    rfl

end Turn

def session (e : Emitter) : List Call → List Turn
  | [] => []
  | call :: rest => ⟨e, call⟩ :: (Turn.after ⟨e, call⟩).session rest

def performAll (e : Emitter) (calls : List Call) : Emitter :=
  calls.foldl (fun e call => Turn.after ⟨e, call⟩) e

theorem performAll_buffer (calls : List Call) (e : Emitter) :
    (e.performAll calls).buffer = e.buffer.writeAll ((e.session calls).flatMap Turn.written) := by
  induction calls generalizing e with
  | nil => rfl
  | cons call rest ih =>
      have step := Turn.after_buffer ⟨e, call⟩
      rw [session, List.flatMap_cons, Buffer.writeAll_append, ← step]
      exact ih _

/-- Whatever is called, the buffer grows in whole steps. -/
theorem performAll_grown (constants : ConstantPool) (labels : Labels) (capacity step : Nat)
    (calls : List Call) :
    ((start constants labels (.empty capacity step)).performAll calls).buffer.Grown capacity := by
  rw [performAll_buffer]
  exact Buffer.writeAll_grown (Buffer.empty_grown capacity step) _

end Emitter

/-- A chunk that decodes to code, every instruction at the sum of the sizes before it and every byte
with the line of its instruction. -/
structure Chunk.Decodes (chunk : Chunk) (code : List Written) : Prop where
  stream : ∃ stream, chunk.instructions = .ok stream ∧
    stream.map Placed.instruction = instructionsOf code ∧
    ∀ before placed behind, stream = before ++ placed :: behind →
      placed.offset = codeSize (before.map Placed.instruction)
  lines : chunk.lines.toList = code.flatMap fun w => List.replicate w.instruction.opcode.size w.line
  covered : chunk.lines.size = chunk.bytes.size

theorem Chunk.of_decodes {code : List Written} (formed : Formed code) :
    (Chunk.of code).Decodes code := by
  have sized : ∀ w ∈ code, w.instruction.encode.length = w.instruction.opcode.size :=
    fun w member => w.instruction.encode_length (formed w member)
  constructor
  · refine ⟨streamOf code, instructions_of formed, placedFrom_instructions 0 _, ?_⟩
    intro before placed behind parts
    rw [placedFrom_offset parts, Nat.zero_add]
  · show code.flatMap (fun w => List.replicate w.instruction.encode.length w.line) = _
    exact congrArg List.flatten (List.map_congr_left fun w member => by rw [sized w member])
  · simp [Chunk.of, List.length_flatMap]

namespace Emitter

/-- Decoding undoes emitting: whatever is called on a fresh emitter, whatever constants and labels
it starts with. -/
theorem session_decodes (constants : ConstantPool) (labels : Labels) (capacity step : Nat)
    (calls : List Call) :
    let e := start constants labels (.empty capacity step)
    (e.performAll calls).buffer.finish.Decodes ((e.session calls).flatMap Turn.written) ∧
      ∀ turn ∈ e.session calls, turn.Expected := by
  intro e
  have formed : Formed ((e.session calls).flatMap Turn.written) := by
    rw [Formed, List.forall_mem_flatMap]
    exact fun turn _ => turn.written_formed
  constructor
  · rw [performAll_buffer]
    show (((Buffer.empty capacity step).writeAll _).finish).Decodes _
    rw [Buffer.finish_fresh]
    exact Chunk.of_decodes formed
  · exact fun turn _ => turn.expected

end Emitter
end StackCompiler
