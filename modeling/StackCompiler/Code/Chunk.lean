import StackCompiler.Code.Instruction

/-!
The code of one body: its bytes and the line each byte stands for.
-/
namespace StackCompiler

structure Chunk where
  bytes : Array UInt8
  lines : Array Nat
deriving DecidableEq, Repr, Inhabited

namespace Chunk

def size (chunk : Chunk) : Nat := chunk.bytes.size

def isEmpty (chunk : Chunk) : Bool := chunk.bytes.isEmpty

def lineAt? (chunk : Chunk) (offset : Nat) : Option Nat := chunk.lines[offset]?

def operandAt? (chunk : Chunk) (offset : Nat) : Option UInt16 :=
  match chunk.bytes[offset]?, chunk.bytes[offset + 1]? with
  | some high, some low => some (ofBigEndian high low)
  | _, _ => none

def opcodeAt? (chunk : Chunk) (offset : Nat) : Option Opcode :=
  chunk.bytes[offset]?.bind Opcode.ofByte?

def opcodes (chunk : Chunk) : List Opcode := opcodesOf chunk.bytes.toList

def instructions (chunk : Chunk) : Except DecodeError (List Placed) :=
  disassemble chunk.bytes.toList

/-- Equal neighbours in the line table, as a line and how many bytes it holds for. -/
def lineRuns (chunk : Chunk) : List (Nat × Nat) :=
  (chunk.lines.foldl addLine []).reverse
where
  addLine : List (Nat × Nat) → Nat → List (Nat × Nat)
    | (line, count) :: runs, next =>
        if line = next then (line, count + 1) :: runs else (next, 1) :: (line, count) :: runs
    | [], next => [(next, 1)]

end Chunk

/-- What is left of `wanted` when each of its members is looked for, in order, in `actual`. -/
def unmatched {α : Type} [DecidableEq α] : (wanted actual : List α) → List α
  | [], _ => []
  | wanted, [] => wanted
  | next :: wanted, found :: actual =>
      if next = found then unmatched wanted actual else unmatched (next :: wanted) actual

namespace Chunk

/-- The opcodes of `wanted` that do not occur in the chunk in that order, gaps allowed. -/
def missing (chunk : Chunk) (wanted : List Opcode) : List Opcode := unmatched wanted chunk.opcodes

def quotedMnemonics (ops : List Opcode) : String :=
  "[" ++ ", ".intercalate (ops.map fun op => "\"" ++ op.mnemonic ++ "\"") ++ "]"

def missingText (chunk : Chunk) (wanted : List Opcode) : String :=
  "Missing opcodes in sequence.\nExpected to find: " ++ quotedMnemonics (chunk.missing wanted)
    ++ "\nActual bytecode:  " ++ quotedMnemonics chunk.opcodes

end Chunk

end StackCompiler
