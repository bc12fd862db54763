import StackCompiler.Code.Buffer

/-!
What a buffer holds.

Looked at up to its cursor, a buffer is the bytes that were put into it, each with its line. Neither
the room behind the cursor nor how often it was enlarged has any part in that.
-/
namespace StackCompiler.Buffer

theorem bytes_toList (buffer : Buffer) :
    buffer.bytes.toList = buffer.code.toList.take buffer.cursor := by
  simp [bytes]

theorem lines_toList (buffer : Buffer) :
    buffer.lines.toList = buffer.lineOf.toList.take buffer.cursor := by
  simp [lines]

@[simp] theorem empty_bytes (capacity step : Nat) : (empty capacity step).bytes = #[] := by
  simp [bytes, empty]

@[simp] theorem empty_lines (capacity step : Nat) : (empty capacity step).lines = #[] := by
  simp [lines, empty]

theorem bytes_size (buffer : Buffer) : buffer.bytes.size = buffer.size := by
  simp [bytes, size, buffer.within]

theorem take_set {α : Type} {entries : List α} {place : Nat} (inside : place < entries.length)
    (entry : α) : (entries.set place entry).take (place + 1) = entries.take place ++ [entry] := by
  rw [List.take_add_one, List.take_set_of_le (Nat.le_refl _), List.getElem?_set_self inside]
  rfl

theorem put?_appends {buffer after : Buffer} {byte : UInt8} {line : Nat}
    (put : buffer.put? byte line = some after) :
    after.bytes.toList = buffer.bytes.toList ++ [byte] ∧
      after.lines.toList = buffer.lines.toList ++ [line] := by
  unfold put? at put
  split at put
  · rename_i room
    have lined : buffer.cursor < buffer.lineOf.toList.length := by
      rw [Array.length_toList, buffer.aligned]
      exact room
    cases put
    simp only [bytes_toList, lines_toList, Array.toList_set]
    exact ⟨take_set room byte, take_set lined line⟩
  · cases put

theorem fill?_appends {buffer after : Buffer} {bytes : List UInt8} {line : Nat}
    (filled : buffer.fill? bytes line = some after) :
    after.bytes.toList = buffer.bytes.toList ++ bytes ∧
      after.lines.toList = buffer.lines.toList ++ List.replicate bytes.length line := by
  induction bytes generalizing buffer with
  | nil =>
      cases filled
      exact ⟨(List.append_nil _).symm, (List.append_nil _).symm⟩
  | cons byte rest ih =>
      rw [fill?, List.foldlM_cons] at filled
      rcases Option.bind_eq_some_iff.mp filled with ⟨middle, put, others⟩
      rcases put?_appends put with ⟨own, here⟩
      rcases ih others with ⟨behind, there⟩
      rw [behind, there, own, here, List.append_assoc, List.append_assoc]
      exact ⟨rfl, rfl⟩

/-- What is behind the cursor when room is made is not looked at. -/
theorem reserve_keeps (buffer : Buffer) (more : Nat) :
    (buffer.reserve more).bytes.toList = buffer.bytes.toList ∧
      (buffer.reserve more).lines.toList = buffer.lines.toList := by
  unfold reserve
  dsimp only
  split
  · exact ⟨rfl, rfl⟩
  · have lined : buffer.cursor ≤ buffer.lineOf.toList.length := by
      rw [Array.length_toList, buffer.aligned]
      exact buffer.within
    simp only [bytes_toList, lines_toList, Array.toList_append]
    exact ⟨List.take_append_of_le_length buffer.within, List.take_append_of_le_length lined⟩

/-- The buffer behind an instruction, with room made for its bytes. -/
def write (buffer : Buffer) (instruction : Instruction) (line : Nat) : Buffer :=
  let roomy := buffer.reserve instruction.encode.length
  (roomy.fill? instruction.encode line).get <| by
    apply fill?_isSome
    rw [reserve_cursor]
    exact buffer.reserve_room _

theorem write_filled (buffer : Buffer) (instruction : Instruction) (line : Nat) :
    (buffer.reserve instruction.encode.length).fill? instruction.encode line =
      some (buffer.write instruction line) :=
  (Option.some_get _).symm

theorem write?_formed (buffer : Buffer) {instruction : Instruction} (formed : instruction.Formed)
    (line : Nat) : buffer.write? instruction line = some (buffer.write instruction line) := by
  rw [write?, ← Instruction.encode_length formed]
  exact buffer.write_filled instruction line

theorem write_appends (buffer : Buffer) (instruction : Instruction) (line : Nat) :
    (buffer.write instruction line).bytes.toList =
        buffer.bytes.toList ++ instruction.encode ∧
      (buffer.write instruction line).lines.toList =
        buffer.lines.toList ++ List.replicate instruction.encode.length line := by
  rcases fill?_appends (buffer.write_filled instruction line) with ⟨bytes, lines⟩
  rcases buffer.reserve_keeps instruction.encode.length with ⟨code, table⟩
  exact ⟨code ▸ bytes, table ▸ lines⟩

/-! Growth. -/

/-- The room was made in whole steps, at least one for each time that some was made. -/
def Grown (start : Nat) (buffer : Buffer) : Prop :=
  ∃ steps, buffer.capacity = start + steps * buffer.step ∧ buffer.enlarged ≤ steps

section
variable {start : Nat} {buffer : Buffer}

theorem empty_grown (capacity step : Nat) : (empty capacity step).Grown capacity :=
  ⟨0, by simp [empty, Buffer.capacity], Nat.le_refl 0⟩

theorem reserve_grown (grown : buffer.Grown start) (more : Nat) :
    (buffer.reserve more).Grown start := by
  rcases grown with ⟨steps, capacity, enlarged⟩
  unfold reserve
  dsimp only
  split
  · exact ⟨steps, capacity, enlarged⟩
  · rename_i full
    have some : 0 < buffer.stepsTo (buffer.cursor + more) := by
      refine Nat.lt_of_not_le fun none => full ?_
      simpa using (buffer.stepsTo_le_iff _ 0).mp none
    refine ⟨steps + buffer.stepsTo (buffer.cursor + more), ?_, by dsimp only; omega⟩
    rw [Nat.add_mul, ← Nat.add_assoc, ← capacity]
    simp [Buffer.capacity]

theorem fill?_grown {after : Buffer} {bytes : List UInt8} {line : Nat} (grown : buffer.Grown start)
    (filled : buffer.fill? bytes line = some after) : after.Grown start := by
  induction bytes generalizing buffer with
  | nil =>
      cases filled
      exact grown
  | cons byte rest ih =>
      rw [fill?, List.foldlM_cons] at filled
      rcases Option.bind_eq_some_iff.mp filled with ⟨middle, put, others⟩
      rcases put?_room put with ⟨_, room, step, same⟩
      rcases grown with ⟨steps, capacity, enlarged⟩
      exact ih ⟨steps, by rw [room, capacity, step], by rwa [same]⟩ others

theorem write_grown (grown : buffer.Grown start) (instruction : Instruction) (line : Nat) :
    (buffer.write instruction line).Grown start :=
  fill?_grown (reserve_grown grown _) (buffer.write_filled instruction line)

end

end StackCompiler.Buffer
