import StackCompiler.Code.Opcode
import StackCompiler.Text.Hex

/-!
Instructions, their bytes, and the reading of a byte stream.

An instruction is an opcode byte and its operands, each of two bytes with the high one first.
`disassemble` reads a whole stream and stops at the first byte that does not start a complete
instruction; `opcodesOf` only steps over operands and takes whatever opcodes it lands on.
-/
namespace StackCompiler

structure Instruction where
  opcode : Opcode
  operands : List UInt16
deriving DecidableEq, Repr

def bigEndian (operand : UInt16) : List UInt8 := [(operand >>> 8).toUInt8, operand.toUInt8]

def ofBigEndian (high low : UInt8) : UInt16 := high.toUInt16 <<< 8 ||| low.toUInt16

namespace Instruction

def encode (i : Instruction) : List UInt8 := i.opcode.byte :: i.operands.flatMap bigEndian

/-- The instruction has as many operands as its opcode takes. -/
def Formed (i : Instruction) : Prop := i.operands.length = i.opcode.arity

instance (i : Instruction) : Decidable i.Formed := inferInstanceAs (Decidable (_ = _))

theorem encode_length {i : Instruction} (formed : i.Formed) : i.encode.length = i.opcode.size := by
  have pairs (operands : List UInt16) :
      (operands.flatMap bigEndian).length = 2 * operands.length := by
    induction operands with
    | nil => rfl
    | cons operand operands ih =>
        rw [List.flatMap_cons, List.length_append, ih, List.length_cons, Nat.mul_succ, Nat.add_comm]
        rfl
  rw [encode, List.length_cons, pairs, formed, Opcode.size, Opcode.operandSize, Nat.add_comm]

end Instruction

/-- An instruction and the offset of its opcode byte in the stream. -/
structure Placed where
  offset : Nat
  instruction : Instruction
deriving DecidableEq, Repr

namespace Placed

def opcode (p : Placed) : Opcode := p.instruction.opcode

def text (p : Placed) : String :=
  p.instruction.operands.foldl (fun line operand => line ++ " " ++ hex 4 operand.toNat)
    (hex 4 p.offset ++ ": " ++ p.opcode.mnemonic)

end Placed

inductive DecodeError
  | unknownOpcode (offset : Nat) (byte : UInt8)
  | truncatedOperand (offset : Nat) (opcode : Opcode)
deriving DecidableEq, Repr

def DecodeError.text : DecodeError → String
  | unknownOpcode offset byte => s!"unknown opcode 0x{hex 2 byte.toNat} at offset 0x{hex 4 offset}"
  | truncatedOperand offset opcode =>
      s!"truncated operand for {opcode.mnemonic} at offset 0x{hex 4 offset}"

def takeOperands : (count : Nat) → List UInt8 → Option (List UInt16 × List UInt8)
  | 0, bytes => some ([], bytes)
  | count + 1, high :: low :: rest =>
      (takeOperands count rest).map fun (operands, rest) => (ofBigEndian high low :: operands, rest)
  | _ + 1, _ => none

theorem takeOperands_length {count : Nat} {bytes rest : List UInt8} {operands : List UInt16}
    (taken : takeOperands count bytes = some (operands, rest)) : rest.length ≤ bytes.length := by
  induction count generalizing bytes operands with
  | zero =>
      cases taken
      exact Nat.le_refl _
  | succ count ih =>
      match bytes with
      | [] | [_] => simp [takeOperands] at taken
      | high :: low :: tail =>
          simp only [takeOperands, Option.map_eq_some_iff] at taken
          obtain ⟨⟨inner, left⟩, found, same⟩ := taken
          cases same
          have shorter : left.length ≤ tail.length := ih found
          simp only [List.length_cons]
          omega

/-- The instruction at the front of a nonempty stream, and the bytes behind it. -/
def decodeOne (offset : Nat) (byte : UInt8) (rest : List UInt8) :
    Except DecodeError (Instruction × List UInt8) :=
  match Opcode.ofByte? byte with
  | none => .error (.unknownOpcode offset byte)
  | some opcode =>
      match takeOperands opcode.arity rest with
      | none => .error (.truncatedOperand offset opcode)
      | some (operands, rest) => .ok (⟨opcode, operands⟩, rest)

theorem decodeOne_length {offset : Nat} {byte : UInt8} {bytes rest : List UInt8}
    {instruction : Instruction} (decoded : decodeOne offset byte bytes = .ok (instruction, rest)) :
    rest.length ≤ bytes.length := by
  unfold decodeOne at decoded
  split at decoded
  · cases decoded
  · split at decoded
    · cases decoded
    · rename_i taken
      cases decoded
      exact takeOperands_length taken

def disassembleFrom (offset : Nat) (bytes : List UInt8) (read : Array Placed) :
    Except DecodeError (Array Placed) :=
  match bytes with
  | [] => .ok read
  | byte :: rest =>
      match _decoded : decodeOne offset byte rest with
      | .error error => .error error
      | .ok (instruction, rest) =>
          disassembleFrom (offset + instruction.opcode.size) rest (read.push ⟨offset, instruction⟩)
termination_by bytes.length
decreasing_by
  have shorter := decodeOne_length _decoded
  simp only [List.length_cons]
  omega

def disassemble (bytes : List UInt8) : Except DecodeError (List Placed) :=
  (disassembleFrom 0 bytes #[]).map Array.toList

/-- The opcodes met when each one's operands are stepped over, up to the first byte that is none. -/
def opcodesFrom (bytes : List UInt8) (read : Array Opcode) : Array Opcode :=
  match bytes with
  | [] => read
  | byte :: rest =>
      match Opcode.ofByte? byte with
      | none => read
      | some opcode => opcodesFrom (rest.drop opcode.operandSize) (read.push opcode)
termination_by bytes.length
decreasing_by
  simp only [List.length_drop, List.length_cons]
  omega

def opcodesOf (bytes : List UInt8) : List Opcode := (opcodesFrom bytes #[]).toList

def Placed.label? (p : Placed) : Option (UInt16 × Nat) :=
  match p.instruction with
  | ⟨.label, id :: _⟩ => some (id, p.offset)
  | _ => none

/-- The labels of a stream by ascending id. Where an id occurs again, its first label counts. -/
def labelTable (stream : List Placed) : List (UInt16 × Nat) :=
  ((stream.filterMap Placed.label?).mergeSort fun a b => a.1 ≤ b.1).eraseRepsBy fun a b =>
    a.1 == b.1

end StackCompiler
