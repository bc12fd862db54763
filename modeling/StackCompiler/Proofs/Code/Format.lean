import StackCompiler.Proofs.Code.Decoding

/-!
The decoder accepts exactly the format.

Reading takes complete instructions off the front for as long as there are any. A stream that is
used up in this way is the code of the instructions read, and of no others; in any other stream what
is left starts with a byte that is no opcode, or with one that has too few bytes behind it. So every
stream is either the code of instructions or has a first fault, and where that is and which it is
does not depend on the decoder.
-/
namespace StackCompiler

namespace Opcode

theorem place_of_table : ∀ place (within : place < table.size), table[place].place = place := by
  decide

theorem ofByte?_eq_some_iff {byte : UInt8} {op : Opcode} :
    ofByte? byte = some op ↔ op.byte = byte := by
  constructor
  · intro found
    rcases Array.getElem?_eq_some_iff.mp found with ⟨within, rfl⟩
    rw [Opcode.byte, place_of_table, UInt8.ofNat_toNat]
  · rintro rfl
    exact ofByte?_byte op

theorem ofByte?_eq_none_iff {byte : UInt8} :
    ofByte? byte = none ↔ ∀ op : Opcode, op.byte ≠ byte := by
  rw [Option.eq_none_iff_forall_ne_some]
  exact forall_congr' fun op => not_congr ofByte?_eq_some_iff

theorem signature_length (op : Opcode) : op.signature.length = op.arity := by
  simp [signature]

end Opcode

/-! One instruction. -/

theorem bigEndian_ofBigEndian (high low : UInt8) :
    bigEndian (ofBigEndian high low) = [high, low] := by
  have above : high.toNat < 2 ^ 8 := high.toNat_lt
  have below : low.toNat < 2 ^ 8 := low.toNat_lt
  have joined : (ofBigEndian high low).toNat = high.toNat * 256 + low.toNat := by
    have moved : (high.toUInt16 <<< 8).toNat = high.toNat <<< 8 := by
      show (high.toNat <<< 8) % 2 ^ 16 = high.toNat <<< 8
      rw [Nat.shiftLeft_eq]
      omega
    rw [ofBigEndian, UInt16.toNat_or, moved, UInt8.toNat_toUInt16,
      ← Nat.shiftLeft_add_eq_or_of_lt below, Nat.shiftLeft_eq]
  have first : (ofBigEndian high low >>> 8).toUInt8 = high := by
    apply UInt8.toNat_inj.mp
    simp only [UInt16.toNat_toUInt8, UInt16.toNat_shiftRight, joined, Nat.shiftRight_eq_div_pow]
    simp
    omega
  have second : (ofBigEndian high low).toUInt8 = low := by
    apply UInt8.toNat_inj.mp
    simp only [UInt16.toNat_toUInt8, joined]
    omega
  rw [bigEndian, first, second]

theorem takeOperands_eq_some_iff {count : Nat} {bytes rest : List UInt8} {operands : List UInt16} :
    takeOperands count bytes = some (operands, rest) ↔
      operands.length = count ∧ bytes = operands.flatMap bigEndian ++ rest := by
  constructor
  · intro taken
    induction count generalizing bytes operands with
    | zero =>
        cases taken
        exact ⟨rfl, rfl⟩
    | succ count ih =>
        match bytes with
        | [] | [_] => cases taken
        | high :: low :: tail =>
            rcases Option.map_eq_some_iff.mp taken with ⟨⟨inner, left⟩, found, same⟩
            cases same
            rcases ih found with ⟨counted, rfl⟩
            refine ⟨congrArg (· + 1) counted, ?_⟩
            rw [List.flatMap_cons, bigEndian_ofBigEndian]
            rfl
  · rintro ⟨rfl, rfl⟩
    exact takeOperands_encoded operands rest

theorem takeOperands_eq_none_iff {count : Nat} {bytes : List UInt8} :
    takeOperands count bytes = none ↔ bytes.length < 2 * count := by
  induction count generalizing bytes with
  | zero => simp [takeOperands]
  | succ count ih =>
      rcases bytes with _ | ⟨high, _ | ⟨low, tail⟩⟩
      · simp [takeOperands]
      · simp [takeOperands]
        omega
      · rw [takeOperands, Option.map_eq_none_iff, ih, List.length_cons, List.length_cons]
        omega

theorem decodeOne_eq_ok_iff {offset : Nat} {byte : UInt8} {bytes rest : List UInt8}
    {i : Instruction} :
    decodeOne offset byte bytes = .ok (i, rest) ↔
      i.Formed ∧ byte :: bytes = i.encode ++ rest := by
  constructor
  · intro decoded
    unfold decodeOne at decoded
    split at decoded
    · cases decoded
    · rename_i opcode known
      split at decoded
      · cases decoded
      · rename_i operands left taken
        cases decoded
        rcases takeOperands_eq_some_iff.mp taken with ⟨counted, rfl⟩
        exact ⟨counted, by rw [Instruction.encode, Opcode.ofByte?_eq_some_iff.mp known]; rfl⟩
  · rintro ⟨formed, same⟩
    rcases List.cons.inj same with ⟨rfl, rfl⟩
    exact i.decodeOne_encoded formed offset rest

namespace DecodeError

def offset : DecodeError → Nat
  | unknownOpcode offset _ | truncatedOperand offset _ => offset

/-- What is wrong at the front of a stream: a byte that is no opcode, or an opcode with too few
bytes behind it. -/
def Faults : DecodeError → List UInt8 → Prop
  | unknownOpcode _ byte, bytes => bytes.head? = some byte ∧ ∀ op : Opcode, op.byte ≠ byte
  | truncatedOperand _ op, bytes =>
      bytes.head? = some op.byte ∧ bytes.tail.length < op.operandSize

end DecodeError

theorem decodeOne_eq_error_iff {offset : Nat} {byte : UInt8} {bytes : List UInt8}
    {error : DecodeError} :
    decodeOne offset byte bytes = .error error ↔
      error.offset = offset ∧ error.Faults (byte :: bytes) := by
  constructor
  · intro failed
    unfold decodeOne at failed
    split at failed
    · rename_i unknown
      cases failed
      exact ⟨rfl, rfl, Opcode.ofByte?_eq_none_iff.mp unknown⟩
    · rename_i opcode known
      split at failed
      · rename_i short
        cases failed
        exact ⟨rfl, congrArg some (Opcode.ofByte?_eq_some_iff.mp known).symm,
          takeOperands_eq_none_iff.mp short⟩
      · cases failed
  · cases error with
    | unknownOpcode place found =>
        rintro ⟨rfl, same, unregistered⟩
        cases same
        have unknown := Opcode.ofByte?_eq_none_iff.mpr unregistered
        simp only [decodeOne, unknown, DecodeError.offset]
    | truncatedOperand place op =>
        rintro ⟨rfl, same, short⟩
        cases same
        have missing : takeOperands op.arity bytes = none := takeOperands_eq_none_iff.mpr short
        simp only [decodeOne, Opcode.ofByte?_byte, missing, DecodeError.offset]

/-- The bytes begin with a complete instruction. -/
def Begins (bytes : List UInt8) : Prop :=
  ∃ i : Instruction, i.Formed ∧ ∃ rest, bytes = i.encode ++ rest

theorem DecodeError.Faults.not_begins {error : DecodeError} {bytes : List UInt8}
    (faults : error.Faults bytes) :
    ¬ Begins bytes := by
  rintro ⟨i, formed, rest, rfl⟩
  have decoded := i.decodeOne_encoded formed error.offset rest
  have failed :
      decodeOne error.offset i.opcode.byte (i.operands.flatMap bigEndian ++ rest) = .error error :=
    decodeOne_eq_error_iff.mpr ⟨rfl, faults⟩
  rw [decoded] at failed
  cases failed

/-! Whole streams. -/

/-- The bytes are those of the instructions, one behind the other, and each has the operands its
opcode takes. -/
structure Encodes (code : List Instruction) (bytes : List UInt8) : Prop where
  formed : ∀ i ∈ code, i.Formed
  bytes : code.flatMap Instruction.encode = bytes

/-- Every stream is the code of instructions and, behind it, nothing or something that is wrong. -/
theorem exists_code (bytes : List UInt8) : ∃ (code : List Instruction) (rest : List UInt8),
    (∀ i ∈ code, i.Formed) ∧ bytes = code.flatMap Instruction.encode ++ rest ∧
      (rest = [] ∨ ∀ offset, ∃ error : DecodeError, error.offset = offset ∧ error.Faults rest) := by
  -- An instruction takes a byte at least, so the induction is on how many are left.
  induction sized : bytes.length using Nat.strongRecOn generalizing bytes with
  | ind size ih =>
      cases bytes with
      | nil => exact ⟨[], [], List.forall_mem_nil _, rfl, .inl rfl⟩
      | cons byte tail =>
          cases decoded : decodeOne 0 byte tail with
          | error failed =>
              refine ⟨[], byte :: tail, List.forall_mem_nil _, rfl, .inr fun offset => ?_⟩
              have faults := (decodeOne_eq_error_iff.mp decoded).2
              cases failed with
              | unknownOpcode _ found => exact ⟨.unknownOpcode offset found, rfl, faults⟩
              | truncatedOperand _ op => exact ⟨.truncatedOperand offset op, rfl, faults⟩
          | ok read =>
              rcases read with ⟨i, rest⟩
              rcases decodeOne_eq_ok_iff.mp decoded with ⟨formed, same⟩
              have shorter : rest.length < size := by
                have counted := congrArg List.length same
                simp only [Instruction.encode, List.length_append, List.length_cons]
                  at counted sized
                omega
              rcases ih rest.length shorter rest rfl with ⟨code, left, others, rfl, final⟩
              refine ⟨i :: code, left, List.forall_mem_cons.mpr ⟨formed, others⟩, ?_, final⟩
              rw [same, List.flatMap_cons, List.append_assoc]

/-- The listing of a stream: the instructions whose code it is, each with as many operands as its
opcode's signature has tags and at the offset that the code before it gives. -/
structure Lists (stream : List Placed) (bytes : List UInt8) : Prop where
  code : (stream.map Placed.instruction).flatMap Instruction.encode = bytes
  operands : ∀ p ∈ stream, p.instruction.operands.length = p.opcode.signature.length
  offsets : ∀ before p behind, stream = before ++ p :: behind →
    p.offset = ((before.map Placed.instruction).flatMap Instruction.encode).length

/-- The error tells the first fault of a stream: what stands before its offset decodes by itself,
and there no complete instruction begins but what the error says is found. -/
structure DecodeError.Pinpoints (error : DecodeError) (bytes : List UInt8) : Prop where
  before : ∃ code, Encodes code (bytes.take error.offset) ∧
    disassemble (bytes.take error.offset) = .ok (placedFrom 0 code)
  incomplete : ¬ Begins (bytes.drop error.offset)
  fault : error.Faults (bytes.drop error.offset)

theorem lists_placedFrom {code : List Instruction} {bytes : List UInt8}
    (encodes : Encodes code bytes) :
    Lists (placedFrom 0 code) bytes := by
  have instructions := placedFrom_instructions 0 code
  constructor
  · rw [instructions]
    exact encodes.bytes
  · intro p member
    have own : p.instruction ∈ code := instructions ▸ List.mem_map_of_mem member
    rw [Opcode.signature_length]
    exact encodes.formed _ own
  · intro before p behind parts
    have formed : ∀ i ∈ before.map Placed.instruction, i.Formed := by
      intro i member
      apply encodes.formed
      rw [← instructions, parts, List.map_append]
      exact List.mem_append_left _ member
    rw [length_encoded _ formed, placedFrom_offset parts, Nat.zero_add]

theorem eq_placedFrom {stream : List Placed} {offset : Nat}
    (offsets : ∀ before p behind, stream = before ++ p :: behind →
      p.offset = offset + codeSize (before.map Placed.instruction)) :
    stream = placedFrom offset (stream.map Placed.instruction) := by
  induction stream generalizing offset with
  | nil => rfl
  | cons p rest ih =>
      have first : p.offset = offset := offsets [] p rest rfl
      have others : rest = placedFrom (offset + p.opcode.size) (rest.map Placed.instruction) := by
        apply ih
        rintro before q behind rfl
        rw [offsets (p :: before) q behind rfl, List.map_cons, codeSize, Nat.add_assoc]
        rfl
      rw [List.map_cons, placedFrom]
      exact List.cons_eq_cons.mpr ⟨by rw [← first], others⟩

theorem Lists.encodes {stream : List Placed} {bytes : List UInt8} (lists : Lists stream bytes) :
    Encodes (stream.map Placed.instruction) bytes := by
  refine ⟨?_, lists.code⟩
  intro i member
  rcases List.mem_map.mp member with ⟨p, listed, rfl⟩
  rw [Instruction.Formed, lists.operands p listed, Opcode.signature_length]
  rfl

theorem Encodes.disassembles {code : List Instruction} {bytes : List UInt8}
    (encodes : Encodes code bytes) :
    disassemble bytes = .ok (placedFrom 0 code) := by
  rw [← encodes.bytes]
  exact disassemble_encoded code encodes.formed

/-- Code behind which something is wrong is read up to there. -/
theorem disassemble_faulty {code : List Instruction} (formed : ∀ i ∈ code, i.Formed)
    {rest : List UInt8} {error : DecodeError} (place : error.offset = codeSize code)
    (faults : error.Faults rest) :
    disassemble (code.flatMap Instruction.encode ++ rest) = .error error := by
  cases rest with
  | nil => cases error <;> cases faults.1
  | cons byte tail =>
      have failed : decodeOne (codeSize code) byte tail = .error error :=
        decodeOne_eq_error_iff.mpr ⟨place, faults⟩
      rw [disassemble, disassembleFrom_encoded code formed, Nat.zero_add,
        disassembleFrom_cons, failed]
      rfl

theorem disassemble_eq_ok_iff {bytes : List UInt8} {stream : List Placed} :
    disassemble bytes = .ok stream ↔ Lists stream bytes := by
  constructor
  · intro decoded
    rcases exists_code bytes with ⟨code, rest, formed, rfl, rfl | faulty⟩
    · have encodes : Encodes code (code.flatMap Instruction.encode ++ []) := ⟨formed, by simp⟩
      rw [encodes.disassembles] at decoded
      cases decoded
      exact lists_placedFrom encodes
    · rcases faulty (codeSize code) with ⟨error, place, faults⟩
      rw [disassemble_faulty formed place faults] at decoded
      cases decoded
  · intro lists
    have encodes := lists.encodes
    have placed : stream = placedFrom 0 (stream.map Placed.instruction) := by
      apply eq_placedFrom
      intro before p behind parts
      have formed : ∀ i ∈ before.map Placed.instruction, i.Formed := by
        intro i member
        apply encodes.formed
        rw [parts, List.map_append]
        exact List.mem_append_left _ member
      rw [lists.offsets before p behind parts, length_encoded _ formed, Nat.zero_add]
    rw [encodes.disassembles, ← placed]

theorem disassemble_eq_error_iff {bytes : List UInt8} {error : DecodeError} :
    disassemble bytes = .error error ↔ error.Pinpoints bytes := by
  constructor
  · intro failed
    rcases exists_code bytes with ⟨code, rest, formed, rfl, rfl | faulty⟩
    · have encodes : Encodes code (code.flatMap Instruction.encode ++ []) := ⟨formed, by simp⟩
      rw [encodes.disassembles] at failed
      cases failed
    · rcases faulty (codeSize code) with ⟨found, place, faults⟩
      rw [disassemble_faulty formed place faults] at failed
      cases failed
      have sized := length_encoded code formed
      have front : (code.flatMap Instruction.encode ++ rest).take error.offset =
        code.flatMap Instruction.encode := by
        rw [place, List.take_left' sized]
      have back : (code.flatMap Instruction.encode ++ rest).drop error.offset = rest := by
        rw [place, List.drop_left' sized]
      constructor
      · rw [front]
        exact ⟨code, ⟨formed, rfl⟩, disassemble_encoded code formed⟩
      · rw [back]
        exact faults.not_begins
      · rw [back]
        exact faults
  · rintro ⟨⟨code, encodes, _⟩, _, faults⟩
    have within : error.offset ≤ bytes.length := by
      rcases Nat.lt_or_ge bytes.length error.offset with beyond | within
      · rw [List.drop_eq_nil_of_le (Nat.le_of_lt beyond)] at faults
        cases error <;> cases faults.1
      · exact within
    have place : error.offset = codeSize code := by
      rw [← length_encoded code encodes.formed, encodes.bytes, List.length_take_of_le within]
    have whole := disassemble_faulty encodes.formed place faults
    rwa [encodes.bytes, List.take_append_drop] at whole

/-- Whatever the bytes are, disassembling them gives their listing if they have one and pinpoints
their first fault if they have not. They have one exactly if they are the code of instructions, and
then of one sequence only. -/
theorem disassemble_exact (bytes : List UInt8) :
    (∀ stream, disassemble bytes = .ok stream ↔ Lists stream bytes) ∧
      (∀ error, disassemble bytes = .error error ↔ error.Pinpoints bytes) ∧
      ((∃ stream, disassemble bytes = .ok stream) ↔ ∃ code, Encodes code bytes) ∧
      ∀ code other, Encodes code bytes → Encodes other bytes → code = other := by
  refine ⟨fun _ => disassemble_eq_ok_iff, fun _ => disassemble_eq_error_iff, ⟨?_, ?_⟩, ?_⟩
  · rintro ⟨stream, decoded⟩
    exact ⟨_, (disassemble_eq_ok_iff.mp decoded).encodes⟩
  · rintro ⟨code, encodes⟩
    exact ⟨_, encodes.disassembles⟩
  · intro code other encodes others
    have same : placedFrom 0 code = placedFrom 0 other := by
      have decoded := encodes.disassembles
      rw [others.disassembles] at decoded
      exact (Except.ok.inj decoded).symm
    rw [← placedFrom_instructions 0 code, same, placedFrom_instructions]

/-- A fault is found behind the code before it: here a jump that lacks the second byte of its
operand. -/
example : disassemble [39, 42, 0] = .error (.truncatedOperand 1 .goto) := by
  cbv

end StackCompiler
