import StackCompiler.Code.Chunk

/-!
The buffer that the code of a body is written into.

Behind the bytes written so far a buffer has room for more, padded with zeros. A byte is put at the
cursor, and only if the cursor stands before the end of the room. Room is made in fixed steps before
an instruction is written, so that none of its bytes is ever refused. Finishing cuts the padding
off.
-/
namespace StackCompiler

@[ext] structure Buffer where
  code : Array UInt8
  lineOf : Array Nat
  cursor : Nat
  step : Nat
  enlarged : Nat
  aligned : lineOf.size = code.size
  within : cursor ≤ code.size
  advances : 0 < step
deriving Repr

namespace Buffer

/-- A buffer grows by one byte at least. -/
def empty (capacity step : Nat) : Buffer where
  code := Array.replicate capacity 0
  lineOf := Array.replicate capacity 0
  cursor := 0
  step := max step 1
  enlarged := 0
  aligned := by simp
  within := Nat.zero_le _
  advances := Nat.lt_of_lt_of_le Nat.zero_lt_one (Nat.le_max_right _ _)

def capacity (buffer : Buffer) : Nat := buffer.code.size

def size (buffer : Buffer) : Nat := buffer.cursor

def isEmpty (buffer : Buffer) : Bool := buffer.cursor == 0

def bytes (buffer : Buffer) : Array UInt8 := buffer.code.take buffer.cursor

def lines (buffer : Buffer) : Array Nat := buffer.lineOf.take buffer.cursor

/-- The least number of steps that makes room for `needed` bytes. -/
def stepsTo (buffer : Buffer) (needed : Nat) : Nat :=
  (needed - buffer.capacity + (buffer.step - 1)) / buffer.step

theorem stepsTo_le_iff (buffer : Buffer) (needed steps : Nat) :
    buffer.stepsTo needed ≤ steps ↔ needed ≤ buffer.capacity + steps * buffer.step := by
  have advances := buffer.advances
  rw [stepsTo, ← Nat.lt_succ_iff, Nat.div_lt_iff_lt_mul advances, Nat.succ_mul]
  omega

def reserve (buffer : Buffer) (more : Nat) : Buffer :=
  let needed := buffer.cursor + more
  if needed ≤ buffer.capacity then buffer
  else
    let room := buffer.stepsTo needed * buffer.step
    { buffer with
      code := buffer.code ++ Array.replicate room 0
      lineOf := buffer.lineOf ++ Array.replicate room 0
      enlarged := buffer.enlarged + 1
      aligned := by simp [buffer.aligned]
      within := by
        rw [Array.size_append]
        exact Nat.le_trans buffer.within (Nat.le_add_right _ _) }

/-- Puts a byte at the cursor; nothing, if the cursor stands at the end of the room. -/
def put? (buffer : Buffer) (byte : UInt8) (line : Nat) : Option Buffer :=
  if room : buffer.cursor < buffer.code.size then
    some { buffer with
      code := buffer.code.set buffer.cursor byte room
      lineOf := buffer.lineOf.set buffer.cursor line (buffer.aligned ▸ room)
      cursor := buffer.cursor + 1
      aligned := by rw [Array.size_set, Array.size_set, buffer.aligned]
      within := by rwa [Array.size_set] }
  else none

def fill? (buffer : Buffer) (bytes : List UInt8) (line : Nat) : Option Buffer :=
  bytes.foldlM (fun buffer byte => buffer.put? byte line) buffer

def write? (buffer : Buffer) (instruction : Instruction) (line : Nat) : Option Buffer :=
  (buffer.reserve instruction.opcode.size).fill? instruction.encode line

def finish (buffer : Buffer) : Chunk := ⟨buffer.bytes, buffer.lines⟩

/-! Room. -/

theorem reserve_cursor (buffer : Buffer) (more : Nat) :
    (buffer.reserve more).cursor = buffer.cursor := by
  unfold reserve
  dsimp only
  split <;> rfl

theorem reserve_room (buffer : Buffer) (more : Nat) :
    buffer.cursor + more ≤ (buffer.reserve more).capacity := by
  unfold reserve
  dsimp only
  split
  · assumption
  · have enough := (buffer.stepsTo_le_iff (buffer.cursor + more) _).mp (Nat.le_refl _)
    rwa [capacity, Array.size_append, Array.size_replicate]

theorem put?_room {buffer after : Buffer} {byte : UInt8} {line : Nat}
    (put : buffer.put? byte line = some after) :
    after.cursor = buffer.cursor + 1 ∧ after.capacity = buffer.capacity ∧
      after.step = buffer.step ∧ after.enlarged = buffer.enlarged := by
  unfold put? at put
  split at put
  · rename_i room
    cases put
    exact ⟨rfl, Array.size_set room, rfl, rfl⟩
  · cases put

/-- As many bytes as there is room for are put without fail. -/
theorem fill?_isSome {buffer : Buffer} {bytes : List UInt8}
    (room : buffer.cursor + bytes.length ≤ buffer.capacity) (line : Nat) :
    (buffer.fill? bytes line).isSome := by
  induction bytes generalizing buffer with
  | nil => rfl
  | cons byte rest ih =>
      rw [List.length_cons] at room
      have here : buffer.cursor < buffer.code.size := by
        rw [capacity] at room
        omega
      cases put : buffer.put? byte line with
      | none => simp [put?, here] at put
      | some after =>
          rcases put?_room put with ⟨next, kept, _⟩
          rw [fill?, List.foldlM_cons, put]
          exact ih (by omega)

/-- An instruction with the operands of its opcode finds room for all of its bytes. -/
theorem write?_isSome (buffer : Buffer) {instruction : Instruction} (formed : instruction.Formed)
    (line : Nat) : (buffer.write? instruction line).isSome := by
  apply fill?_isSome
  rw [reserve_cursor, Instruction.encode_length formed]
  exact buffer.reserve_room _

-- Without room a byte is refused, and room is made before the first byte of an instruction.
example : ((empty 0 1).put? 0 9).isNone := rfl
example :
    ((empty 0 1).write? ⟨.label, [0x0102]⟩ 9).map (fun after => (after.capacity, after.enlarged)) =
      some (3, 1) := by decide

end Buffer

end StackCompiler
