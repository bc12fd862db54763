import StackCompiler.Proofs.Code.Decoding

/-!
What the label table of a stream says.

The table is sorted, and of equal neighbours it keeps one. Sorting is stable, so what is found under
an id is what a search of the stream itself finds: the first label of that id.
-/
namespace StackCompiler

section
variable {β : Type}

/-- A search by key sees no more of a list than the entries of that key. -/
theorem lookup_filter (key : UInt16) (entries : List (UInt16 × β)) :
    (entries.filter fun entry => entry.1 == key).lookup key = entries.lookup key := by
  induction entries with
  | nil => rfl
  | cons entry rest ih =>
      obtain ⟨own, value⟩ := entry
      by_cases same : own = key
      · subst same
        simp
      · have apart : (key == own) = false := beq_false_of_ne fun equal => same equal.symm
        rw [List.filter_cons_of_neg (by simpa using same), ih, List.lookup_cons, apart]

theorem filter_sorted (key : UInt16) (entries : List (UInt16 × β)) :
    (entries.mergeSort fun a b => a.1 ≤ b.1).filter (fun entry => entry.1 == key) =
      entries.filter fun entry => entry.1 == key := by
  have equal : (entries.filter fun entry => entry.1 == key).Pairwise
      fun a b => decide (a.1 ≤ b.1) = true := by
    apply List.pairwise_of_forall_mem_list
    intro a first b second
    simp only [List.mem_filter, beq_iff_eq] at first second
    simp [first.2, second.2]
  have kept := (List.sublist_mergeSort (by simpa using fun a _ b _ c _ => UInt16.le_trans)
    (by simpa using fun a _ b _ => UInt16.le_total a b) equal List.filter_sublist).filter
      fun entry => entry.1 == key
  rw [List.filter_filter] at kept
  simp only [Bool.and_self] at kept
  exact (kept.eq_of_length ((List.mergeSort_perm entries _).filter _).length_eq.symm).symm

/-- Dropping an entry behind one of the same key changes no search. -/
theorem lookup_eraseReps (key : UInt16) (entries : List (UInt16 × β)) :
    (entries.eraseRepsBy fun a b => a.1 == b.1).lookup key = entries.lookup key := by
  have loop : ∀ (rest : List (UInt16 × β)) (last : UInt16 × β) (done : List (UInt16 × β)),
      (List.eraseRepsBy.loop (fun a b => a.1 == b.1) last rest done).lookup key =
        (done.reverse ++ last :: rest).lookup key := by
    intro rest
    induction rest with
    | nil => intro last done; simp [List.eraseRepsBy.loop]
    | cons next rest ih =>
        intro last done
        rw [List.eraseRepsBy.loop]
        split
        · rename_i same
          obtain ⟨own, value⟩ := last
          obtain ⟨_, other⟩ := next
          obtain rfl := eq_of_beq same
          rw [ih]
          cases sought : key == own <;> simp [List.lookup_append, List.lookup_cons, sought]
        · rw [ih]
          simp
  cases entries with
  | nil => rfl
  | cons first rest => exact loop rest first []

end

theorem lookup_labelTable (stream : List Placed) (id : UInt16) :
    (labelTable stream).lookup id = (stream.filterMap Placed.label?).lookup id := by
  rw [labelTable, lookup_eraseReps, ← lookup_filter, filter_sorted, lookup_filter]

def Instruction.label? : Instruction → Option UInt16
  | ⟨.label, id :: _⟩ => some id
  | _ => none

theorem Placed.label?_eq (offset : Nat) (i : Instruction) :
    Placed.label? ⟨offset, i⟩ = i.label?.map (·, offset) := by
  obtain ⟨opcode, operands⟩ := i
  cases opcode <;> cases operands <;> rfl

theorem lookup_placed {before after : List Instruction} {i : Instruction} {id : UInt16}
    (offset : Nat) (first : id ∉ before.filterMap Instruction.label?) (own : i.label? = some id) :
    ((placedFrom offset (before ++ i :: after)).filterMap Placed.label?).lookup id =
      some (offset + codeSize before) := by
  induction before generalizing offset with
  | nil => simp [placedFrom, Placed.label?_eq, own, codeSize]
  | cons j rest ih =>
      rw [List.cons_append, placedFrom, List.filterMap_cons, Placed.label?_eq]
      cases other : j.label? with
      | none =>
          rw [List.filterMap_cons_none other] at first
          simp only [Option.map_none, ih _ first, codeSize, Nat.add_assoc]
      | some landed =>
          rw [List.filterMap_cons_some other, List.mem_cons, not_or] at first
          have apart : (id == landed) = false := beq_false_of_ne first.1
          simp [List.lookup_cons, apart, ih _ first.2, codeSize, Nat.add_assoc]

/-- Where a jump to a label goes on, as the loader resolves it. -/
def Chunk.labelAt? (chunk : Chunk) (id : UInt16) : Option Nat :=
  match chunk.instructions with
  | .ok stream => (labelTable stream).lookup id
  | .error _ => none

theorem Chunk.labelAt?_encoded {chunk : Chunk} {before after : List Instruction} {i : Instruction}
    {id : UInt16} (bytes : chunk.bytes.toList = (before ++ i :: after).flatMap Instruction.encode)
    (formed : ∀ j ∈ before ++ i :: after, j.Formed)
    (first : id ∉ before.filterMap Instruction.label?)
    (own : i.label? = some id) : chunk.labelAt? id = some (codeSize before) := by
  simp only [labelAt?, instructions, bytes, disassemble_encoded _ formed, lookup_labelTable,
    lookup_placed 0 first own, Nat.zero_add]

end StackCompiler
