import StackCompiler.Proofs.Lowering.Shape
import StackCompiler.Proofs.Machine.Step

/-!
Runs through code that stands in a chunk.

`Runs` says what straight-line code does without saying where it stands. `reaches_line` turns that
into steps of the machine, for code with anything before and after it.
-/
namespace StackCompiler

namespace Machine
variable {Bases : Type} {vm : Operations Bases} {exe : Executable} {s t u : State Bases}

theorem execute_formed {i : Instruction} (ran : execute vm exe i s = some t) : i.Formed := by
  -- An opcode with the wrong number of operands is not executed.
  obtain ⟨opcode, operands⟩ := i
  rcases operands with _ | ⟨first, _ | ⟨second, rest⟩⟩ <;> cases opcode <;> first | rfl | cases ran

theorem step_execute {chunk : Chunk} {i : Instruction} {offset : Nat}
    (found : chunk.instructionAt? offset = some i) (ran : execute vm exe i s = some t) :
    step vm exe chunk ⟨offset, s⟩ = some ⟨offset + i.opcode.size, t⟩ := by
  simp only [step, found, Option.bind_some]
  split
  · cases ran
  · rw [ran, Option.map_some]

theorem step_jump {chunk : Chunk} {id : UInt16} {offset : Nat}
    (found : chunk.instructionAt? offset = some ⟨.goto, [id]⟩) :
    step vm exe chunk ⟨offset, s⟩ = jump vm chunk id (offset + Opcode.goto.size) s := by
  simp only [step, found, Option.bind_some]

theorem reaches_step {chunk : Chunk} {c d : Config Bases} (taken : step vm exe chunk c = some d) :
    Reaches vm exe chunk c d :=
  Relation.ReflTransGen.single taken

def Runs (vm : Operations Bases) (exe : Executable) :
    List Written → State Bases → State Bases → Prop
  | [], s, t => s = t
  | w :: rest, s, t =>
      ∃ next, execute vm exe w.instruction s = some next ∧ Runs vm exe rest next t

theorem runs_append {code more : List Written} (first : Runs vm exe code s t)
    (second : Runs vm exe more t u) : Runs vm exe (code ++ more) s u := by
  induction code generalizing s with
  | nil =>
      cases first
      exact second
  | cons w rest ih =>
      obtain ⟨next, ran, others⟩ := first
      exact ⟨next, ran, ih others⟩

theorem runs_written {opcode : Opcode} (line : Nat) (ran : execute vm exe ⟨opcode, []⟩ s = some t) :
    Runs vm exe (Lowering.written line opcode) s t :=
  ⟨t, ran, rfl⟩

theorem runs_indexed {opcode : Opcode} {index : Nat} (line : Nat)
    (ran : execute vm exe ⟨opcode, [.ofNat index]⟩ s = some t) :
    Runs vm exe (Lowering.indexed line opcode index) s t :=
  ⟨t, ran, rfl⟩

theorem instructionAt?_of {before after : List Written} {w : Written} (formed : Formed before)
    (own : w.instruction.Formed) :
    (Chunk.of (before ++ w :: after)).instructionAt? (sizeOfCode before) = some w.instruction := by
  have bytes := Chunk.of_bytes (before ++ w :: after)
  rw [instructionsOf_append] at bytes
  exact Chunk.instructionAt?_encoded bytes (instructionsOf_formed formed) own

theorem reaches_line {before line after : List Written} (formed : Formed before)
    (ran : Runs vm exe line s t) :
    Reaches vm exe (Chunk.of (before ++ line ++ after)) ⟨sizeOfCode before, s⟩
      ⟨sizeOfCode (before ++ line), t⟩ := by
  induction line generalizing before s with
  | nil =>
      cases ran
      rw [List.append_nil]
      exact Relation.ReflTransGen.refl
  | cons w rest ih =>
      obtain ⟨next, taken, others⟩ := ran
      have split : before ++ w :: rest = before ++ [w] ++ rest := by simp
      have single : Formed [w] := List.forall_mem_singleton.mpr (execute_formed taken)
      have found : (Chunk.of (before ++ w :: rest ++ after)).instructionAt? (sizeOfCode before) =
          some w.instruction := by
        rw [List.append_assoc]
        exact instructionAt?_of formed (execute_formed taken)
      have taken := step_execute found taken
      have moved : sizeOfCode before + w.instruction.opcode.size = sizeOfCode (before ++ [w]) := by
        rw [sizeOfCode_append]
        rfl
      rw [moved] at taken
      rw [split] at taken ⊢
      exact (reaches_step taken).trans (ih (formed_append.mpr ⟨formed, single⟩) others)

theorem reaches_jump {before after : List Written} {line : Nat} {id : UInt16} {value : Value}
    {stack : List Value} {memory : Memory Bases} {offset : Nat} (formed : Formed before)
    (target : if vm.holds value then offset = sizeOfCode (before ++ [⟨line, ⟨.goto, [id]⟩⟩])
      else (Chunk.of (before ++ ⟨line, ⟨.goto, [id]⟩⟩ :: after)).labelAt? id =
        some offset) :
    Reaches vm exe (Chunk.of (before ++ ⟨line, ⟨.goto, [id]⟩⟩ :: after))
      ⟨sizeOfCode before, ⟨value :: stack, memory⟩⟩ ⟨offset, ⟨stack, memory⟩⟩ := by
  have own : Instruction.Formed ⟨.goto, [id]⟩ := rfl
  apply reaches_step
  rw [step_jump (instructionAt?_of formed own)]
  simp only [jump]
  split at target
  · rename_i holds
    rw [if_pos holds, target, sizeOfCode_append]
    rfl
  · rename_i fails
    rw [if_neg fails, target, Option.map_some]

end Machine
end StackCompiler
