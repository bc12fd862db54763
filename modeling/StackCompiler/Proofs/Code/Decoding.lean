import StackCompiler.Code.Chunk

/-!
Decoding undoes encoding.

An instruction that has the operands its opcode asks for is read back from its bytes, whatever
stands behind it. So the bytes of such instructions, one after the other, disassemble to these
instructions, each at the sum of the sizes before it.
-/
namespace StackCompiler

theorem ofBigEndian_bigEndian (operand : UInt16) :
    ofBigEndian (operand >>> 8).toUInt8 operand.toUInt8 = operand := by
  have bound : operand.toNat < 65536 := operand.toNat_lt
  have low : operand.toNat % 256 < 2 ^ 8 := Nat.mod_lt _ (by decide)
  have high : operand.toNat / 256 % 256 * 256 % 65536 = operand.toNat / 256 * 256 := by omega
  have joined := Nat.shiftLeft_add_eq_or_of_lt low (operand.toNat / 256)
  rw [Nat.shiftLeft_eq] at joined
  apply UInt16.toNat_inj.mp
  calc (ofBigEndian (operand >>> 8).toUInt8 operand.toUInt8).toNat
      = operand.toNat / 256 % 256 * 256 % 65536 ||| operand.toNat % 256 := by
        simp [ofBigEndian, Nat.shiftRight_eq_div_pow, Nat.shiftLeft_eq]
    _ = operand.toNat / 256 * 256 + operand.toNat % 256 := by rw [high]; exact joined.symm
    _ = operand.toNat := by omega

theorem takeOperands_encoded (operands : List UInt16) (rest : List UInt8) :
    takeOperands operands.length (operands.flatMap bigEndian ++ rest) = some (operands, rest) := by
  induction operands with
  | nil => rfl
  | cons operand operands ih =>
      simp only [List.flatMap_cons, bigEndian, List.cons_append, List.nil_append, List.length_cons,
        takeOperands, ih, Option.map_some, ofBigEndian_bigEndian]

namespace Instruction
variable {i : Instruction}

theorem decodeOne_encoded (formed : i.Formed) (offset : Nat) (rest : List UInt8) :
    decodeOne offset i.opcode.byte (i.operands.flatMap bigEndian ++ rest) = .ok (i, rest) := by
  have taken := takeOperands_encoded i.operands rest
  rw [formed] at taken
  simp only [decodeOne, Opcode.ofByte?_byte, taken]

end Instruction

def placedFrom : (offset : Nat) → List Instruction → List Placed
  | _, [] => []
  | offset, i :: rest => ⟨offset, i⟩ :: placedFrom (offset + i.opcode.size) rest

def codeSize : List Instruction → Nat
  | [] => 0
  | i :: rest => i.opcode.size + codeSize rest

theorem disassembleFrom_nil (offset : Nat) (read : Array Placed) :
    disassembleFrom offset [] read = .ok read := by
  rw [disassembleFrom]

theorem disassembleFrom_cons (offset : Nat) (byte : UInt8) (bytes : List UInt8)
    (read : Array Placed) :
    disassembleFrom offset (byte :: bytes) read =
      match decodeOne offset byte bytes with
      | .error error => .error error
      | .ok (i, rest) =>
          disassembleFrom (offset + i.opcode.size) rest (read.push ⟨offset, i⟩) := by
  rw [disassembleFrom]
  split
  · rename_i failed
    rw [failed]
  · rename_i decoded
    rw [decoded]

theorem disassembleFrom_encoded (stream : List Instruction) (formed : ∀ i ∈ stream, i.Formed)
    (offset : Nat) (rest : List UInt8) (read : Array Placed) :
    disassembleFrom offset (stream.flatMap Instruction.encode ++ rest) read =
      disassembleFrom (offset + codeSize stream) rest (read ++
        (placedFrom offset stream).toArray) := by
  induction stream generalizing offset read with
  | nil => simp [placedFrom, codeSize]
  | cons i more ih =>
      obtain ⟨first, others⟩ := List.forall_mem_cons.mp formed
      have decoded := i.decodeOne_encoded first offset (more.flatMap Instruction.encode ++ rest)
      rw [List.flatMap_cons, Instruction.encode, List.cons_append, List.cons_append,
        List.append_assoc, disassembleFrom_cons, decoded]
      simp only [ih others]
      simp [placedFrom, codeSize, Nat.add_assoc]

/-- The bytes of formed instructions disassemble to these instructions. -/
theorem disassemble_encoded (stream : List Instruction) (formed : ∀ i ∈ stream, i.Formed) :
    disassemble (stream.flatMap Instruction.encode) = .ok (placedFrom 0 stream) := by
  have read := disassembleFrom_encoded stream formed 0 [] #[]
  rw [List.append_nil, disassembleFrom_nil] at read
  simp [disassemble, read, Except.map]

theorem codeSize_append (stream more : List Instruction) :
    codeSize (stream ++ more) = codeSize stream + codeSize more := by
  induction stream with
  | nil => simp [codeSize]
  | cons i rest ih => simp [codeSize, ih, Nat.add_assoc]

theorem placedFrom_append (offset : Nat) (stream more : List Instruction) :
    placedFrom offset (stream ++ more) =
      placedFrom offset stream ++ placedFrom (offset + codeSize stream) more := by
  induction stream generalizing offset with
  | nil => simp [placedFrom, codeSize]
  | cons i rest ih => simp [placedFrom, codeSize, ih, Nat.add_assoc]

theorem placedFrom_instructions (offset : Nat) (stream : List Instruction) :
    (placedFrom offset stream).map Placed.instruction = stream := by
  induction stream generalizing offset with
  | nil => rfl
  | cons i rest ih => simp [placedFrom, ih]

theorem placedFrom_offset {stream : List Instruction} {offset : Nat} {before behind : List Placed}
    {placed : Placed} (parts : placedFrom offset stream = before ++ placed :: behind) :
    placed.offset = offset + codeSize (before.map Placed.instruction) := by
  induction before generalizing offset stream with
  | nil =>
      cases stream with
      | nil => cases parts
      | cons i rest =>
          cases parts
          rfl
  | cons first before ih =>
      cases stream with
      | nil => cases parts
      | cons i rest =>
          rcases List.cons.inj parts with ⟨rfl, later⟩
          rw [ih later, List.map_cons, codeSize, Nat.add_assoc]

theorem placedFrom_behind (offset : Nat) (stream : List Instruction) :
    ∀ p ∈ placedFrom offset stream, offset ≤ p.offset := by
  induction stream generalizing offset with
  | nil => exact List.forall_mem_nil _
  | cons i rest ih =>
      intro p member
      rcases List.mem_cons.mp member with rfl | later
      · exact Nat.le_refl _
      · exact Nat.le_trans (Nat.le_add_right _ _) (ih _ p later)

theorem placedFrom_ascends (offset : Nat) (stream : List Instruction) :
    (placedFrom offset stream).Pairwise fun p q => p.offset < q.offset := by
  -- An instruction takes a byte at least, so the offsets ascend.
  induction stream generalizing offset with
  | nil => exact .nil
  | cons i rest ih =>
      constructor
      · intro q later
        have behind := placedFrom_behind _ rest q later
        have sized : 0 < i.opcode.size := Nat.add_pos_left Nat.one_pos _
        show offset < q.offset
        omega
      · exact ih _

theorem length_encoded (stream : List Instruction) (formed : ∀ i ∈ stream, i.Formed) :
    (stream.flatMap Instruction.encode).length = codeSize stream := by
  induction stream with
  | nil => rfl
  | cons i rest ih =>
      obtain ⟨first, others⟩ := List.forall_mem_cons.mp formed
      rw [List.flatMap_cons, List.length_append, Instruction.encode_length first,
        ih others, codeSize]

def Chunk.instructionAt? (chunk : Chunk) (offset : Nat) : Option Instruction :=
  match chunk.bytes.toList.drop offset with
  | [] => none
  | byte :: rest => (decodeOne offset byte rest).toOption.map Prod.fst

theorem Chunk.instructionAt?_encoded {chunk : Chunk} {before after : List Instruction}
    {i : Instruction} (bytes : chunk.bytes.toList =
      (before ++ i :: after).flatMap Instruction.encode)
    (formed : ∀ j ∈ before, j.Formed) (own : i.Formed) :
    chunk.instructionAt? (codeSize before) = some i := by
  have behind : chunk.bytes.toList.drop (codeSize before) =
      i.opcode.byte :: (i.operands.flatMap bigEndian ++ after.flatMap Instruction.encode) := by
    rw [bytes, List.flatMap_append, List.drop_left' (length_encoded before formed),
      List.flatMap_cons]
    rfl
  simp only [instructionAt?, behind, i.decodeOne_encoded own, Except.toOption, Option.map_some]

theorem Chunk.instructionAt?_end (chunk : Chunk) : chunk.instructionAt? chunk.size = none := by
  have behind : chunk.bytes.toList.drop chunk.size = [] := by simp [size]
  simp only [instructionAt?, behind]

end StackCompiler
