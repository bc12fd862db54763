import StackCompiler.Proofs.Lowering.Brackets
import StackCompiler.Proofs.Machine.Operands

/-!
Paths through a chunk and the stack pointers that are saved along them.

A jump may be taken or not, so many paths lead through a chunk. The straight one takes no jump. If
the jump and the label of each id stand at one height of the straight path, every path is at each
instruction at the height of the straight one; and if all paths are balanced, they do stand so.
-/
namespace StackCompiler

namespace Instruction

def saves (i : Instruction) : Bool := i.opcode = .pushStackPointer

def restores (i : Instruction) : Bool := i.opcode = .popStackPointer

/-- How many more stack pointers are saved behind the instruction than before it. -/
def rise (i : Instruction) : Int := i.saves.toNat - i.restores.toNat

end Instruction

namespace Chunk

/-- The instructions that a path from the start of a chunk has executed when it comes to an
offset. -/
inductive Path (chunk : Chunk) : List Instruction → Nat → Prop
  | start : chunk.Path [] 0
  | step {run : List Instruction} {offset next : Nat} {i : Instruction}
    (before : chunk.Path run offset)
      (here : chunk.instructionAt? offset = some i) (goes : i.GoesOn chunk offset next) :
      chunk.Path (run ++ [i]) next

/-- No path restores more stack pointers than it has saved, and one that comes to the end has
restored them all. -/
structure SavesBalanced (chunk : Chunk) : Prop where
  within : ∀ run offset, chunk.Path run offset →
    run.countP Instruction.restores ≤ run.countP Instruction.saves
  even : ∀ run, chunk.Path run chunk.size →
    run.countP Instruction.restores = run.countP Instruction.saves

end Chunk

def rise : List Instruction → Int
  | [] => 0
  | i :: rest => i.rise + rise rest

theorem rise_append (run more : List Instruction) : rise (run ++ more) = rise run + rise more := by
  induction run with
  | nil => exact (Int.zero_add _).symm
  | cons i rest ih => rw [List.cons_append, rise, rise, ih, Int.add_assoc]

theorem rise_single (i : Instruction) : rise [i] = i.rise := Int.add_zero _

theorem rise_counts (run : List Instruction) :
    rise run = run.countP Instruction.saves - run.countP Instruction.restores := by
  induction run with
  | nil => rfl
  | cons i rest ih =>
      rw [rise, ih, countP_first, countP_first, Instruction.rise]
      omega

theorem jump?_rise {i : Instruction} {id : UInt16} (jumps : i.jump? = some id) : i.rise = 0 := by
  rcases i with ⟨opcode, operands⟩
  cases opcode <;> first | cases jumps | rfl

def climb (code : List Written) : Int := rise (instructionsOf code)

theorem climb_append (code more : List Written) :
    climb (code ++ more) = climb code + climb more := by
  rw [climb, instructionsOf_append, rise_append]
  rfl

theorem climb_single (w : Written) : climb [w] = w.instruction.rise := rise_single w.instruction

theorem climb_cons (w : Written) (rest : List Written) :
    climb (w :: rest) = w.instruction.rise + climb rest := rfl

def Along (holds : Int → Instruction → Prop) : Int → List Written → Prop
  | _, [] => True
  | height, w :: rest =>
      holds height w.instruction ∧ Along holds (height + w.instruction.rise) rest

def StaysUp (height : Int) (i : Instruction) : Prop := 0 ≤ height + i.rise

def StandsAt (levels : UInt16 → Int) (height : Int) (i : Instruction) : Prop :=
  ∀ id, i.jump? = some id ∨ i.label? = some id → height = levels id

section
variable {holds : Int → Instruction → Prop} {code more : List Written} {height : Int}

theorem along_append :
    Along holds height (code ++ more) ↔
      Along holds height code ∧ Along holds (height + climb code) more := by
  induction code generalizing height with
  | nil => simp [Along, climb, instructionsOf, rise]
  | cons w rest ih =>
      rw [List.cons_append, Along, Along, ih, climb_cons, Int.add_assoc, and_assoc]

theorem along_iff :
    Along holds height code ↔
      ∀ before w after, code = before ++ w :: after →
      holds (height + climb before) w.instruction := by
  constructor
  · rintro along before w after rfl
    exact (along_append.mp along).2.1
  · intro each
    induction code generalizing height with
    | nil => trivial
    | cons w rest ih =>
        constructor
        · have first := each [] w rest rfl
          simpa [climb, instructionsOf, rise] using first
        · apply ih
          rintro before v after rfl
          have later := each (w :: before) v after rfl
          rwa [climb_cons, ← Int.add_assoc] at later

theorem instruction_among {before after : List Written} {w : Written}
    (parts : code = before ++ w :: after) :
    w.instruction ∈ instructionsOf code := by
  rw [parts, instructionsOf_append]
  exact List.mem_append_right _ List.mem_cons_self

theorem along_staysUp (start : 0 ≤ height) (up : Along StaysUp height code) :
    0 ≤ height + climb code := by
  induction code generalizing height with
  | nil => simpa [climb, instructionsOf, rise] using start
  | cons w rest ih =>
      rw [climb_cons, ← Int.add_assoc]
      exact ih up.1 up.2

end

namespace Chunk
variable {code : List Written}

theorem jump?_of {i : Instruction} (formed : i.Formed) (jump : i.opcode = .goto) {id : UInt16}
    (member : id ∈ i.operands) : i.jump? = some id := by
  rcases i with ⟨opcode, operands⟩
  cases jump
  rcases List.length_eq_one_iff.mp formed with ⟨only, rfl⟩
  rw [List.mem_singleton.mp member]
  rfl

/-- A path is at the height of straight execution wherever it comes, if jumps and labels stand at
the levels of their ids. -/
theorem path_along (formed : Formed code) {levels : UInt16 → Int}
    (level : Along (StandsAt levels) 0 code)
    {run : List Instruction} {offset : Nat} (path : (Chunk.of code).Path run offset) :
    ∃ before after, code = before ++ after ∧ offset = sizeOfCode before ∧
      rise run = climb before := by
  induction path with
  | start => exact ⟨[], code, rfl, rfl, rfl⟩
  | @step run offset next i _ here goes ih =>
      rcases ih with ⟨before, after, rfl, place, height⟩
      rw [place, instructionAt?_boundary formed] at here
      rcases Option.map_eq_some_iff.mp here with ⟨w, first, rfl⟩
      rcases List.head?_eq_some_iff.mp first with ⟨rest, rfl⟩
      rw [rise_append, rise_single, height]
      rcases goes with straight | ⟨jump, id, member, target⟩
      · refine ⟨before ++ [w], rest, by simp, ?_, ?_⟩
        · rw [straight, place, sizeOfCode_append]
          rfl
        · rw [climb_append, climb_single]
      · have jumps : w.instruction.jump? = some id :=
          jump?_of ((formed_append.mp formed).2 w List.mem_cons_self) jump member
        rcases labelAt?_split formed target with ⟨early, label, late, parts, lands, there⟩
        have leaves : 0 + climb before = levels id :=
          along_iff.mp level before w rest rfl id (.inl jumps)
        have comes : 0 + climb early = levels id :=
          along_iff.mp level early label late parts id (.inr lands)
        refine ⟨early, label :: late, parts, there, ?_⟩
        rw [jump?_rise jumps]
        omega

/-- Any path can go on straight. -/
theorem path_straight {before middle after : List Written} {run : List Instruction}
    (formed : Formed (before ++ middle ++ after))
    (path : (Chunk.of (before ++ middle ++ after)).Path run (sizeOfCode before)) :
    (Chunk.of (before ++ middle ++ after)).Path (run ++ instructionsOf middle)
      (sizeOfCode (before ++ middle)) := by
  induction middle generalizing before run with
  | nil =>
      rw [List.append_nil]
      simpa [instructionsOf] using path
  | cons w rest ih =>
      have split : before ++ w :: rest = before ++ [w] ++ rest := by simp
      have here : (Chunk.of (before ++ (w :: rest ++ after))).instructionAt? (sizeOfCode before) =
          some w.instruction :=
        instructionAt?_boundary (by simpa using formed)
      rw [← List.append_assoc] at here
      have onward : (Chunk.of (before ++ w :: rest ++ after)).Path (run ++ [w.instruction])
          (sizeOfCode (before ++ [w])) := by
        apply Path.step path here
        rw [sizeOfCode_append]
        exact .inl rfl
      have whole :
          run ++ instructionsOf (w :: rest) = run ++ [w.instruction] ++ instructionsOf rest := by
        simp [instructionsOf]
      rw [whole]
      rw [split] at formed onward ⊢
      exact ih formed onward

theorem path_before {before after : List Written} (formed : Formed (before ++ after)) :
    (Chunk.of (before ++ after)).Path (instructionsOf before) (sizeOfCode before) :=
  path_straight formed (show (Chunk.of ([] ++ before ++ after)).Path [] (sizeOfCode []) from .start)

theorem prefix_of_size {before after early late : List Written}
    (parts : before ++ after = early ++ late)
    (size : sizeOfCode before = sizeOfCode early) : before = early := by
  -- Every instruction takes a byte, so prefixes of one size are the same.
  have none : ∀ more : List Written, sizeOfCode more = 0 → more = [] := by
    intro more empty
    cases more with
    | nil => rfl
    | cons w rest =>
        have sized : 0 < w.instruction.opcode.size := Nat.add_pos_left Nat.one_pos _
        have whole : sizeOfCode (w :: rest) = w.instruction.opcode.size + sizeOfCode rest := rfl
        omega
  rcases List.append_eq_append_iff.mp parts with ⟨more, rfl, _⟩ | ⟨more, rfl, _⟩
  · rw [sizeOfCode_append] at size
    rw [none more (by omega), List.append_nil]
  · rw [sizeOfCode_append] at size
    rw [none more (by omega), List.append_nil]

/-- Where the ids of the labels differ, the table leads to each label. -/
theorem labelAt?_landed (formed : Formed code) (distinct : (landed code).Nodup)
    {before after : List Written} {w : Written} (parts : code = before ++ w :: after) {id : UInt16}
    (lands : w.instruction.label? = some id) :
    (Chunk.of code).labelAt? id = some (sizeOfCode before) := by
  have split :
      instructionsOf code = instructionsOf before ++ w.instruction :: instructionsOf after := by
    rw [parts, instructionsOf_append]
    rfl
  have bytes := Chunk.of_bytes code
  have first : id ∉ (instructionsOf before).filterMap Instruction.label? := by
    rw [landed, split, List.filterMap_append, List.filterMap_cons_some lands] at distinct
    exact fun earlier => (List.nodup_append.mp distinct).2.2 id earlier id List.mem_cons_self rfl
  rw [split] at bytes
  exact labelAt?_encoded bytes (split ▸ instructionsOf_formed formed) first lands

theorem jump?_goes {i : Instruction} {id : UInt16} (jumps : i.jump? = some id) :
    i.opcode = .goto ∧ id ∈ i.operands := by
  rcases i with ⟨opcode, operands⟩
  cases opcode with
  | goto =>
      cases operands with
      | nil => cases jumps
      | cons own rest =>
          cases jumps
          exact ⟨rfl, List.mem_cons_self⟩
  | _ => cases jumps

section
variable (formed : Formed code) (balanced : (Chunk.of code).SavesBalanced)
include formed balanced

theorem path_level {run : List Instruction} (path : (Chunk.of code).Path run (sizeOfCode code)) :
    rise run = 0 := by
  rw [← Chunk.of_size formed] at path
  have even := balanced.even run path
  rw [rise_counts]
  omega

theorem climb_before {before after : List Written} (parts : code = before ++ after) :
    0 ≤ climb before := by
  subst parts
  have within := balanced.within _ _ (path_before formed)
  rw [climb, rise_counts]
  omega

theorem climb_whole : climb code = 0 := by
  have path : (Chunk.of code).Path (instructionsOf code) (sizeOfCode code) := by
    have closed : Formed (code ++ []) := (List.append_nil code).symm ▸ formed
    have whole := path_before closed
    rwa [List.append_nil] at whole
  exact path_level formed balanced path

/-- A jump and its label stand at one height: one path jumps, and the straight one does not. -/
theorem jump_level {before after early late : List Written} {w : Written} {id : UInt16}
    (parts : code = before ++ w :: after) (jumps : w.instruction.jump? = some id)
    (other : code = early ++ late)
    (target : (Chunk.of code).labelAt? id = some (sizeOfCode early)) :
    climb before = climb early := by
  have path : (Chunk.of code).Path (instructionsOf before) (sizeOfCode before) := by
    subst parts
    exact path_before formed
  have here : (Chunk.of code).instructionAt? (sizeOfCode before) = some w.instruction := by
    subst parts
    exact instructionAt?_boundary formed
  have jumped :
      (Chunk.of code).Path (instructionsOf before ++ [w.instruction]) (sizeOfCode early) :=
    .step path here (.inr ⟨(jump?_goes jumps).1, id, (jump?_goes jumps).2, target⟩)
  have whole : early ++ late ++ [] = code := by rw [List.append_nil, other]
  rw [← whole] at jumped
  have ended := path_straight (whole ▸ formed) jumped
  rw [whole, ← other] at ended
  have level := path_level formed balanced ended
  have straight := climb_whole formed balanced
  rw [rise_append, rise_append, rise_single, jump?_rise jumps] at level
  rw [other, climb_append] at straight
  rw [climb, climb] at straight
  rw [climb, climb]
  omega

/-- All jumps and labels of one id stand at one height. -/
theorem level_exists (distinct : (landed code).Nodup)
    (lands : ∀ id ∈ jumped code, id ∈ landed code) (id : UInt16) :
    ∃ level, ∀ before w after, code = before ++ w :: after →
      w.instruction.jump? = some id ∨ w.instruction.label? = some id →
      climb before = level := by
  by_cases member : id ∈ landed code
  · rcases List.mem_filterMap.mp member with ⟨i, inside, lands⟩
    rcases List.mem_map.mp inside with ⟨label, here, rfl⟩
    rcases List.append_of_mem here with ⟨early, late, parts⟩
    have target := labelAt?_landed formed distinct parts lands
    refine ⟨climb early, fun before w after split stands => ?_⟩
    rcases stands with jumps | again
    · exact jump_level formed balanced split jumps parts target
    · have second := labelAt?_landed formed distinct split again
      have same : before = early :=
        prefix_of_size (split.symm.trans parts) (Option.some.inj (second.symm.trans target))
      rw [same]
  · refine ⟨0, fun before w after split stands => absurd ?_ member⟩
    have inside := instruction_among split
    rcases stands with jumps | again
    · exact lands id (List.mem_filterMap.mpr ⟨_, inside, jumps⟩)
    · exact List.mem_filterMap.mpr ⟨_, inside, again⟩

end

/-- The saves of a chunk are balanced exactly if straight execution never falls below its start and
comes back to it, and each jump stands at the height of its label. -/
theorem savesBalanced_iff (formed : Formed code) (distinct : (landed code).Nodup)
    (lands : ∀ id ∈ jumped code, id ∈ landed code) :
    (Chunk.of code).SavesBalanced ↔
      Along StaysUp 0 code ∧ climb code = 0 ∧ ∃ levels, Along (StandsAt levels) 0 code := by
  constructor
  · intro balanced
    rcases Classical.skolem.mp (level_exists formed balanced distinct lands) with ⟨levels, stands⟩
    refine ⟨along_iff.mpr ?_, climb_whole formed balanced, levels, along_iff.mpr ?_⟩
    · intro before w after parts
      have above := climb_before formed balanced (parts.trans (List.append_cons before w after))
      rw [climb_append, climb_single] at above
      rw [StaysUp, Int.zero_add]
      exact above
    · intro before w after parts id own
      rw [Int.zero_add]
      exact stands id before w after parts own
  · rintro ⟨up, level, levels, stands⟩
    have height : ∀ {run offset}, (Chunk.of code).Path run offset →
        ∃ before after, code = before ++ after ∧ offset = sizeOfCode before ∧
        rise run = climb before :=
      path_along formed stands
    constructor
    · intro run offset path
      rcases height path with ⟨before, after, rfl, _, same⟩
      have above := along_staysUp (Int.le_refl 0) (along_append.mp up).1
      rw [rise_counts] at same
      omega
    · intro run path
      rcases height path with ⟨before, after, parts, size, same⟩
      rw [Chunk.of_size formed] at size
      have whole : code = before := prefix_of_size ((List.append_nil code).trans parts) size
      rw [← whole, level, rise_counts] at same
      omega

end Chunk
end StackCompiler
