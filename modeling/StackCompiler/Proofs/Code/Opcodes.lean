import StackCompiler.Proofs.Code.Format
import StackCompiler.Proofs.Lowering.Chunks

/-!
The opcodes of a chunk.

Listing the opcodes is a decoder of its own: it looks at no operand and steps over the room they
should take, whether or not there are that many bytes. Where disassembling succeeds it lists what
was disassembled. Where that fails it has listed everything before the fault, and of an instruction
that is cut short also the opcode.

A sequence of opcodes is looked for in that list by taking each at its first occurrence behind the
one before. No other choice gets further, so what is left over is what no choice can find.
-/
namespace StackCompiler

/-! Stepping over operands. -/

theorem opcodesFrom_cons (byte : UInt8) (bytes : List UInt8) (read : Array Opcode) :
    opcodesFrom (byte :: bytes) read =
      match Opcode.ofByte? byte with
      | none => read
      | some op => opcodesFrom (bytes.drop op.operandSize) (read.push op) :=
  opcodesFrom.eq_def (byte :: bytes) read

theorem opcodesFrom_toList (bytes : List UInt8) (read : Array Opcode) :
    (opcodesFrom bytes read).toList = read.toList ++ opcodesOf bytes := by
  -- The bytes that are stepped over make the stream shorter by an unknown amount, so the induction
  -- is on its length.
  induction sized : bytes.length using Nat.strongRecOn generalizing bytes read with
  | ind size ih =>
      cases bytes with
      | nil => simp [opcodesOf, opcodesFrom]
      | cons byte rest =>
          rw [opcodesOf, opcodesFrom_cons, opcodesFrom_cons]
          cases Opcode.ofByte? byte with
          | none => simp
          | some op =>
              have shorter : (rest.drop op.operandSize).length < size := by
                simp only [List.length_drop, List.length_cons] at sized ⊢
                omega
              simp [ih _ shorter _ _ rfl]

theorem opcodesOf_nil : opcodesOf [] = [] := by
  simp [opcodesOf, opcodesFrom]

theorem opcodesOf_cons (byte : UInt8) (bytes : List UInt8) :
    opcodesOf (byte :: bytes) =
      match Opcode.ofByte? byte with
      | none => []
      | some op => op :: opcodesOf (bytes.drop op.operandSize) := by
  rw [opcodesOf, opcodesFrom_cons]
  cases Opcode.ofByte? byte with
  | none => rfl
  | some op => exact opcodesFrom_toList _ _

/-- Of a complete instruction the operands are stepped over and nothing else. -/
theorem opcodesOf_encode {i : Instruction} (formed : i.Formed) (rest : List UInt8) :
    opcodesOf (i.encode ++ rest) = i.opcode :: opcodesOf rest := by
  have sized := Instruction.encode_length formed
  have room : (i.operands.flatMap bigEndian).length = i.opcode.operandSize := by
    rw [Instruction.encode, List.length_cons, Opcode.size] at sized
    omega
  have behind : (i.operands.flatMap bigEndian ++ rest).drop i.opcode.operandSize = rest :=
    List.drop_left' room
  rw [Instruction.encode, List.cons_append, opcodesOf_cons, Opcode.ofByte?_byte]
  simp only [behind]

theorem opcodesOf_code {code : List Instruction} (formed : ∀ i ∈ code, i.Formed)
    (rest : List UInt8) :
    opcodesOf (code.flatMap Instruction.encode ++ rest) =
      code.map Instruction.opcode ++ opcodesOf rest := by
  induction code with
  | nil => rfl
  | cons i more ih =>
      rcases List.forall_mem_cons.mp formed with ⟨first, others⟩
      rw [List.flatMap_cons, List.append_assoc, opcodesOf_encode first, ih others]
      rfl

def DecodeError.opcode? : DecodeError → Option Opcode
  | unknownOpcode _ _ => none
  | truncatedOperand _ op => some op

theorem opcodesOf_faulty {error : DecodeError} {rest : List UInt8} (faults : error.Faults rest) :
    opcodesOf rest = error.opcode?.toList := by
  cases rest with
  | nil => cases error <;> cases faults.1
  | cons byte tail =>
      cases error with
      | unknownOpcode offset found =>
          rcases faults with ⟨same, unknown⟩
          cases same
          rw [opcodesOf_cons, Opcode.ofByte?_eq_none_iff.mpr unknown]
          rfl
      | truncatedOperand offset op =>
          rcases faults with ⟨same, short⟩
          cases same
          have nothing : tail.drop op.operandSize = [] :=
            List.drop_eq_nil_of_le (Nat.le_of_lt short)
          rw [opcodesOf_cons, Opcode.ofByte?_byte]
          simp only [nothing, opcodesOf_nil]
          rfl

/-! Against disassembling. -/

theorem placedFrom_opcodes (offset : Nat) (code : List Instruction) :
    (placedFrom offset code).map Placed.opcode = code.map Instruction.opcode := by
  have parts : (placedFrom offset code).map Placed.opcode =
      ((placedFrom offset code).map Placed.instruction).map Instruction.opcode := by
    rw [List.map_map]
    rfl
  rw [parts, placedFrom_instructions]

theorem opcodesOf_disassembled {bytes : List UInt8} {stream : List Placed}
    (decoded : disassemble bytes = .ok stream) :
    opcodesOf bytes = stream.map Placed.opcode := by
  have encodes := (disassemble_eq_ok_iff.mp decoded).encodes
  have whole := opcodesOf_code encodes.formed []
  rw [List.append_nil, encodes.bytes, opcodesOf_nil, List.append_nil, List.map_map] at whole
  exact whole

/-- Where it does not decode, they are those of the instructions before the fault and, if there is
one, the opcode there. -/
theorem opcodesOf_failed {bytes : List UInt8} {error : DecodeError}
    (failed : disassemble bytes = .error error) :
    ∃ stream, disassemble (bytes.take error.offset) = .ok stream ∧
      opcodesOf bytes = stream.map Placed.opcode ++ error.opcode?.toList := by
  rcases disassemble_eq_error_iff.mp failed with ⟨⟨code, encodes, decoded⟩, _, faults⟩
  refine ⟨placedFrom 0 code, decoded, ?_⟩
  have whole := opcodesOf_code encodes.formed (bytes.drop error.offset)
  rw [encodes.bytes, List.take_append_drop, opcodesOf_faulty faults] at whole
  rw [whole, placedFrom_opcodes]

namespace Chunk

/-- The list of opcodes tells of a chunk what disassembling it tells. -/
structure Enumerates (chunk : Chunk) : Prop where
  decoded : ∀ stream, chunk.instructions = .ok stream → chunk.opcodes = stream.map Placed.opcode
  unknown : ∀ offset byte, chunk.instructions = .error (.unknownOpcode offset byte) →
    ∃ stream, disassemble (chunk.bytes.toList.take offset) = .ok stream ∧
      chunk.opcodes = stream.map Placed.opcode
  truncated : ∀ offset op, chunk.instructions = .error (.truncatedOperand offset op) →
    chunk.opcodeAt? offset = some op ∧
      ∃ stream, disassemble (chunk.bytes.toList.take offset) = .ok stream ∧
        chunk.opcodes = stream.map Placed.opcode ++ [op]

theorem enumerates (chunk : Chunk) : chunk.Enumerates where
  decoded _ decoded := opcodesOf_disassembled decoded
  unknown offset byte failed := by
    rcases opcodesOf_failed failed with ⟨stream, before, opcodes⟩
    exact ⟨stream, before, opcodes.trans (List.append_nil _)⟩
  truncated offset op failed := by
    refine ⟨?_, opcodesOf_failed failed⟩
    have first : (chunk.bytes.toList.drop offset).head? = some op.byte :=
      (disassemble_eq_error_iff.mp failed).fault.1
    rw [List.head?_drop, Array.getElem?_toList] at first
    rw [opcodeAt?, first]
    exact Opcode.ofByte?_byte op

end Chunk

/-- The opcodes of any chunk are those that disassembling finds, up to the first fault if there is
one. In the code of a program there is none, so there every instruction is listed. -/
theorem opcodes_agree : (∀ chunk : Chunk, chunk.Enumerates) ∧
    ∀ (p : Program) (options : LoweringOptions) (exe : Executable), p.lower options = .ok exe →
      ∀ chunk ∈ exe.bodies.map Prod.snd, ∃ stream, chunk.instructions = .ok stream ∧
        chunk.opcodes = stream.map Placed.opcode := by
  refine ⟨Chunk.enumerates, ?_⟩
  intro p options exe lowered chunk member
  have yields := p.lower_yields options
  rw [lowered] at yields
  rcases yields with ⟨rfl, _⟩
  have decode := p.chunks_decode (.empty options.labelLimit)
  have decoded :
      chunk.instructions ∈ ((p.codes (.empty options.labelLimit)).map streamOf).map Except.ok :=
    decode ▸ List.mem_map_of_mem member
  rcases List.mem_map.mp decoded with ⟨stream, _, same⟩
  exact ⟨stream, same.symm, chunk.enumerates.decoded stream same.symm⟩

/-- A byte that is no opcode, a jump that lacks the second byte of its operand, and the code of
nested conditionals. -/
theorem opcodes_agree_cut :
    ((⟨#[39, 200], #[1, 1]⟩ : Chunk).instructions = .error (.unknownOpcode 1 200) ∧
      ∃ stream, disassemble [39] = .ok stream ∧
        (⟨#[39, 200], #[1, 1]⟩ : Chunk).opcodes = stream.map Placed.opcode) ∧
    ((⟨#[39, 42, 0], #[1, 1, 1]⟩ : Chunk).instructions = .error (.truncatedOperand 1 .goto) ∧
      ∃ stream, disassemble [39] = .ok stream ∧
        (⟨#[39, 42, 0], #[1, 1, 1]⟩ : Chunk).opcodes = stream.map Placed.opcode ++ [.goto]) ∧
    ∃ exe, Program.branching.lower ⟨0, 10, 2⟩ = .ok exe ∧
    ∀ chunk ∈ exe.bodies.map Prod.snd,
      ∃ stream, chunk.instructions = .ok stream ∧ chunk.opcodes = stream.map Placed.opcode := by
  have foreign :
      (⟨#[39, 200], #[1, 1]⟩ : Chunk).instructions = .error (.unknownOpcode 1 200) := by
    cbv
  have cut :
    (⟨#[39, 42, 0], #[1, 1, 1]⟩ : Chunk).instructions = .error (.truncatedOperand 1 .goto) := by
    cbv
  have succeeds : (Program.branching.lower ⟨0, 10, 2⟩).isOk = true := by decide +kernel
  rcases exists_of_isOk succeeds with ⟨exe, ran⟩
  exact ⟨⟨foreign, (opcodes_agree.1 _).unknown 1 200 foreign⟩,
    ⟨cut, ((opcodes_agree.1 _).truncated 1 .goto cut).2⟩,
    exe, ran, opcodes_agree.2 Program.branching ⟨0, 10, 2⟩ exe ran⟩

/-! Opcodes in a given order. -/

section
variable {α : Type} [DecidableEq α]

/-- What is found of a wanted list is the longest beginning of it that occurs in the other. -/
theorem unmatched_leaves (wanted actual : List α) :
    ∃ found, wanted = found ++ unmatched wanted actual ∧ found.Sublist actual ∧
      ∀ other, other <+: wanted → other.Sublist actual → other <+: found := by
  fun_induction unmatched wanted actual with
  | case1 actual =>
      exact ⟨[], rfl, List.nil_sublist _, fun _ first _ => first⟩
  | case2 wanted _ =>
      refine ⟨[], rfl, List.Sublist.refl _, fun other _ inside => ?_⟩
      rcases List.sublist_nil.mp inside with rfl
      exact List.prefix_refl []
  | case3 wanted next actual ih =>
      rcases ih with ⟨found, split, occurs, longest⟩
      refine ⟨next :: found, congrArg (next :: ·) split, occurs.cons_cons next, ?_⟩
      intro other first inside
      cases other with
      | nil => exact List.nil_prefix
      | cons head tail =>
          rcases List.cons_prefix_cons.mp first with ⟨rfl, rest⟩
          exact List.cons_prefix_cons.mpr
            ⟨rfl, longest tail rest (List.cons_sublist_cons.mp inside)⟩
  | case4 next wanted found actual distinct ih =>
      rcases ih with ⟨before, split, occurs, longest⟩
      refine ⟨before, split, occurs.cons found, ?_⟩
      intro other first inside
      apply longest other first
      -- The member that was passed over cannot be the first of what is wanted.
      cases inside with
      | cons _ inside => exact inside
      | cons_cons _ _ => exact absurd (List.cons_prefix_cons.mp first).1.symm distinct

theorem unmatched_eq_nil_iff (wanted actual : List α) :
    unmatched wanted actual = [] ↔ wanted.Sublist actual := by
  rcases unmatched_leaves wanted actual with ⟨found, split, occurs, longest⟩
  constructor
  · intro nothing
    rw [nothing, List.append_nil] at split
    exact split ▸ occurs
  · intro inside
    have all : wanted <+: found := longest wanted (List.prefix_refl wanted) inside
    have whole := congrArg List.length split
    have within := all.length_le
    rw [List.length_append] at whole
    apply List.length_eq_zero_iff.mp
    omega

end

/-- Nothing is missing exactly if the wanted opcodes occur in the chunk in their order, and what is
reported as missing stands behind the longest beginning of them that does. -/
theorem Chunk.missing_exact (chunk : Chunk) (wanted : List Opcode) :
    (chunk.missing wanted = [] ↔ wanted.Sublist chunk.opcodes) ∧
      ∃ found left, wanted = found ++ left ∧ found.Sublist chunk.opcodes ∧
        (∀ other, other <+: wanted → other.Sublist chunk.opcodes → other <+: found) ∧
        chunk.missing wanted = left ∧
        chunk.missingText wanted = "Missing opcodes in sequence.\nExpected to find: " ++
        quotedMnemonics left ++
          "\nActual bytecode:  " ++ quotedMnemonics chunk.opcodes := by
  refine ⟨unmatched_eq_nil_iff wanted chunk.opcodes, ?_⟩
  rcases unmatched_leaves wanted chunk.opcodes with ⟨found, split, occurs, longest⟩
  exact ⟨found, chunk.missing wanted, split, occurs, longest, rfl, rfl⟩

end StackCompiler
