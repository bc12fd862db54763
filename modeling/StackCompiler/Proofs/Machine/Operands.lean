import StackCompiler.Proofs.Machine.Line

/-!
The machine as far as the kinds of operands go.

In place of a value the stack holds what kind of value it is, or the function that it refers to. A
jump takes its condition and may go either way, so from one state there can be several paths. If
nothing lies on the stack behind a jump and before a label, then all of them find what straight
execution of the code finds.
-/
namespace StackCompiler

inductive Operand
  | value (kind : Kind)
  | function (id : FunId)
deriving DecidableEq, Repr

namespace Opcode

/-- The kinds of the values that an instruction takes, the topmost first. What a call and a pop take
is not up to the opcode alone. -/
def takes : Opcode → List Kind
  | store kind | negate kind => [kind]
  | arith _ kind | compare _ kind => [kind, kind]
  | logic _ => [.int, .int]
  | increment | decrement | not | goto => [.int]
  | convert cast => [cast.source.kind]
  | push _ | load _ | pushFunction | invoke | pop | pushStackPointer | popStackPointer | label => []

def gives : Opcode → List Kind
  | push kind | load kind | arith _ kind | negate kind => [kind]
  | compare .. | logic _ | increment | decrement | not => [.int]
  | convert cast => [cast.target.kind]
  | store _ | pushFunction | invoke | pop | pushStackPointer | popStackPointer | goto | label => []

end Opcode

namespace Operand

def take : List Kind → List Operand → Option (List Operand)
  | [], stack => some stack
  | kind :: kinds, value found :: stack => if found = kind then take kinds stack else none
  | _ :: _, _ => none

def arguments (params : List Ty) : List Operand := params.reverse.map fun ty => value ty.kind

def invoke (exe : Executable) : List Operand → Option (List Operand)
  | function id :: stack =>
      exe.functions[id.index]?.bind fun f =>
        (take (f.params.reverse.map Ty.kind) stack).map (value f.returns.kind :: ·)
  | _ => none

end Operand

/-- What an instruction makes of a stack; nothing, if the operands it takes are not there. -/
def Instruction.apply (exe : Executable) (i : Instruction) (stack : List Operand) :
    Option (List Operand) :=
  match i.opcode with
  | .pushFunction => i.operands.head?.map fun place => .function ⟨place.toNat⟩ :: stack
  | .invoke => Operand.invoke exe stack
  | .pop => stack.tail?
  | opcode => (Operand.take opcode.takes stack).map (opcode.gives.map Operand.value ++ ·)

/-- Where the machine can go on: behind the instruction, and from a jump also at its label. -/
def Instruction.GoesOn (chunk : Chunk) (i : Instruction) (offset next : Nat) : Prop :=
  next = offset + i.opcode.size ∨ i.opcode = .goto ∧
    ∃ id ∈ i.operands, chunk.labelAt? id = some next

structure Outline where
  offset : Nat
  stack : List Operand

namespace Executable
variable (exe : Executable)

def Moves (chunk : Chunk) (c d : Outline) : Prop :=
  ∃ i, chunk.instructionAt? c.offset = some i ∧ i.apply exe c.stack = some d.stack ∧
    i.GoesOn chunk c.offset d.offset

def Leads (chunk : Chunk) : Outline → Outline → Prop := Relation.ReflTransGen (exe.Moves chunk)

/-- Every path from the start of the chunk leads to its end or to an instruction that finds its
operands. -/
def SafeFrom (chunk : Chunk) (stack : List Operand) : Prop :=
  ∀ c, exe.Leads chunk ⟨0, stack⟩ c → c.offset = chunk.size ∨
    ∃ i after, chunk.instructionAt? c.offset = some i ∧ i.apply exe c.stack = some after

/-- All bodies are safe, those of functions with their arguments on the stack. -/
structure KindSafe : Prop where
  top : exe.SafeFrom exe.code []
  functions :
    ∀ f ∈ exe.functions, ∀ chunk ∈ f.code, exe.SafeFrom chunk (Operand.arguments f.params)

/-- What code makes of a stack when no jump is taken. -/
def track : List Written → List Operand → Option (List Operand)
  | [], stack => some stack
  | w :: rest, stack => (w.instruction.apply exe stack).bind (track rest)

def Level : List Written → List Operand → Prop
  | [], _ => True
  | w :: rest, stack =>
      (w.instruction.opcode = .label → stack = []) ∧
        ∀ next, w.instruction.apply exe stack = some next →
        (w.instruction.opcode = .goto → next = []) ∧ Level rest next

variable {exe}

theorem track_append (code more : List Written) (stack : List Operand) :
    exe.track (code ++ more) stack = (exe.track code stack).bind (exe.track more) := by
  induction code generalizing stack with
  | nil => rfl
  | cons w rest ih =>
      rw [List.cons_append, track, track, Option.bind_assoc]
      exact congrArg _ (funext ih)

theorem track_single (w : Written) (stack : List Operand) :
    exe.track [w] stack = w.instruction.apply exe stack := by
  rw [track]
  exact Option.bind_fun_some _

theorem level_append {code more : List Written} {stack : List Operand} :
    exe.Level (code ++ more) stack ↔
      exe.Level code stack ∧ ∀ middle, exe.track code stack = some middle →
      exe.Level more middle := by
  induction code generalizing stack with
  | nil => simp [Level, track]
  | cons w rest ih =>
      rw [List.cons_append, Level, Level]
      constructor
      · rintro ⟨label, onward⟩
        refine ⟨⟨label, fun next applied => ?_⟩, fun middle tracked => ?_⟩
        · exact ⟨(onward next applied).1, (ih.mp (onward next applied).2).1⟩
        · rcases Option.bind_eq_some_iff.mp tracked with ⟨next, applied, others⟩
          exact (ih.mp (onward next applied).2).2 middle others
      · rintro ⟨⟨label, onward⟩, behind⟩
        refine ⟨label, fun next applied =>
          ⟨(onward next applied).1, ih.mpr ⟨(onward next applied).2, ?_⟩⟩⟩
        exact fun middle others =>
          behind middle (Option.bind_eq_some_iff.mpr ⟨next, applied, others⟩)

theorem level_plain {code : List Written} (plain : ∀ w ∈ code, w.Plain) (stack : List Operand) :
    exe.Level code stack := by
  induction code generalizing stack with
  | nil => trivial
  | cons w rest ih =>
      rcases List.forall_mem_cons.mp plain with ⟨⟨_, jump, label⟩, others⟩
      exact ⟨fun same => absurd same label, fun next _ =>
        ⟨fun same => absurd same jump, ih others next⟩⟩

/-- Code that cannot be tracked has a first instruction that does not find its operands. -/
theorem track_stuck {code : List Written} {stack : List Operand}
    (stuck : exe.track code stack = none) :
    ∃ before w after middle, code = before ++ w :: after ∧
      exe.track before stack = some middle ∧
      w.instruction.apply exe middle = none := by
  induction code generalizing stack with
  | nil => cases stuck
  | cons w rest ih =>
      cases applied : w.instruction.apply exe stack with
      | none => exact ⟨[], w, rest, stack, rfl, rfl, applied⟩
      | some next =>
          rw [track, applied] at stuck
          rcases ih stuck with ⟨before, last, after, middle, rfl, tracked, failed⟩
          refine ⟨w :: before, last, after, middle, rfl, ?_, failed⟩
          rw [track, applied]
          exact tracked

end Executable

/-! Offsets in a chunk of code. -/

theorem label?_opcode {i : Instruction} {id : UInt16} (lands : i.label? = some id) :
    i.opcode = .label := by
  unfold Instruction.label? at lands
  split at lands
  · rfl
  · cases lands

/-- A label that is found stands in the code. -/
theorem lookup_placed_split {stream : List Instruction} {id : UInt16} {offset place : Nat}
    (found : ((placedFrom offset stream).filterMap Placed.label?).lookup id = some place) :
    ∃ before i after, stream = before ++ i :: after ∧ i.label? = some id ∧
      place = offset + codeSize before := by
  induction stream generalizing offset with
  | nil => cases found
  | cons i rest ih =>
      have later : ((placedFrom (offset + i.opcode.size) rest).filterMap Placed.label?).lookup id =
        some place →
          ∃ before j after, i :: rest = before ++ j :: after ∧ j.label? = some id ∧
            place = offset + codeSize before := by
        intro behind
        rcases ih behind with ⟨before, j, after, rfl, label, rfl⟩
        exact ⟨i :: before, j, after, rfl, label, by rw [codeSize, Nat.add_assoc]⟩
      rw [placedFrom, List.filterMap_cons, Placed.label?_eq] at found
      cases own : i.label? with
      | none =>
          rw [own] at found
          exact later found
      | some landed =>
          rw [own, Option.map_some, List.lookup_cons] at found
          split at found
          · rename_i same
            rw [beq_iff_eq.mp same]
            exact ⟨[], i, rest, rfl, own, (Option.some.inj found).symm⟩
          · exact later found

theorem Chunk.labelAt?_split {code : List Written} (formed : Formed code) {id : UInt16}
    {place : Nat} (found : (Chunk.of code).labelAt? id = some place) :
    ∃ before w after, code = before ++ w :: after ∧ w.instruction.label? = some id ∧
      place = sizeOfCode before := by
  have stream : (Chunk.of code).instructions = .ok (placedFrom 0 (instructionsOf code)) := by
    rw [instructions, of_bytes]
    exact disassemble_encoded _ (instructionsOf_formed formed)
  rw [labelAt?, stream] at found
  simp only [lookup_labelTable] at found
  rcases lookup_placed_split found with ⟨before, i, after, parts, label, rfl⟩
  rcases List.map_eq_append_iff.mp parts with ⟨first, others, rfl, rfl, behind⟩
  rcases List.map_eq_cons_iff.mp behind with ⟨w, last, rfl, rfl, _⟩
  exact ⟨first, w, last, rfl, label, Nat.zero_add _⟩

theorem Chunk.instructionAt?_boundary {before after : List Written}
    (formed : Formed (before ++ after)) :
    (Chunk.of (before ++ after)).instructionAt? (sizeOfCode before) =
      after.head?.map Written.instruction := by
  cases after with
  | nil =>
      rw [List.append_nil] at formed ⊢
      rw [← Chunk.of_size formed]
      exact Chunk.instructionAt?_end _
  | cons w rest =>
      rcases formed_append.mp formed with ⟨early, late⟩
      exact Machine.instructionAt?_of early (List.forall_mem_cons.mp late).1

namespace Executable
variable {exe : Executable} {code : List Written} {start : List Operand}

def OnTrack (exe : Executable) (code : List Written) (start : List Operand) (c : Outline) : Prop :=
  ∃ before after, code = before ++ after ∧ c.offset = sizeOfCode before ∧
    exe.track before start = some c.stack

/-- What can be tracked to its end can be tracked to any of its instructions. -/
theorem track_part {before after : List Written}
    (tracked : (exe.track (before ++ after) start).isSome) :
    ∃ middle, exe.track before start = some middle ∧ (exe.track after middle).isSome := by
  rw [track_append] at tracked
  cases first : exe.track before start with
  | none =>
      rw [first] at tracked
      cases tracked
  | some middle =>
      rw [first] at tracked
      exact ⟨middle, rfl, tracked⟩

theorem level_label {before after : List Written} {w : Written} {middle : List Operand}
    (level : exe.Level (before ++ w :: after) start) (here : exe.track before start = some middle)
    (label : w.instruction.opcode = .label) : middle = [] :=
  ((level_append.mp level).2 middle here).1 label

theorem level_jump {before after : List Written} {w : Written} {middle next : List Operand}
    (level : exe.Level (before ++ w :: after) start) (here : exe.track before start = some middle)
    (applied : w.instruction.apply exe middle = some next) (jump : w.instruction.opcode = .goto) :
    next = [] :=
  (((level_append.mp level).2 middle here).2 next applied).1 jump

theorem onTrack_moves (formed : Formed code) (level : exe.Level code start)
    (tracked : (exe.track code start).isSome) {c d : Outline} (onTrack : exe.OnTrack code start c)
    (moves : exe.Moves (Chunk.of code) c d) : exe.OnTrack code start d := by
  rcases onTrack with ⟨before, after, rfl, place, here⟩
  rcases moves with ⟨i, found, applied, goes⟩
  rw [place, Chunk.instructionAt?_boundary formed] at found
  rcases Option.map_eq_some_iff.mp found with ⟨w, first, rfl⟩
  rcases List.head?_eq_some_iff.mp first with ⟨rest, rfl⟩
  rcases goes with next | ⟨jump, id, _, target⟩
  · refine ⟨before ++ [w], rest, by simp, ?_, ?_⟩
    · rw [next, place, sizeOfCode_append]
      rfl
    · rw [track_append, here]
      exact (track_single w _).trans applied
  · -- The jump leaves nothing on the stack, and straight execution comes to its label with
    -- nothing.
    rcases Chunk.labelAt?_split formed target with ⟨early, label, late, parts, lands, offset⟩
    have same := label?_opcode lands
    rw [parts] at level tracked
    rcases track_part tracked with ⟨middle, there, _⟩
    refine ⟨early, label :: late, parts, offset, ?_⟩
    rw [there, level_label level there same, level_jump (parts ▸ level) here applied jump]

theorem onTrack_leads (formed : Formed code) (level : exe.Level code start)
    (tracked : (exe.track code start).isSome) {c : Outline}
    (leads : exe.Leads (Chunk.of code) ⟨0, start⟩ c) :
    exe.OnTrack code start c := by
  induction leads with
  | refl => exact ⟨[], code, rfl, rfl, rfl⟩
  | tail _ moves ih => exact onTrack_moves formed level tracked ih moves

/-- Straight execution is one of the paths. -/
theorem leads_track {before middle after : List Written} {stack next : List Operand}
    (formed : Formed (before ++ middle ++ after)) (tracked : exe.track middle stack = some next) :
    exe.Leads (Chunk.of (before ++ middle ++ after)) ⟨sizeOfCode before, stack⟩
      ⟨sizeOfCode (before ++ middle), next⟩ := by
  induction middle generalizing before stack with
  | nil =>
      cases tracked
      rw [List.append_nil]
      exact Relation.ReflTransGen.refl
  | cons w rest ih =>
      rcases Option.bind_eq_some_iff.mp tracked with ⟨between, applied, others⟩
      have split : before ++ w :: rest = before ++ [w] ++ rest := by simp
      have found : (Chunk.of (before ++ (w :: rest ++ after))).instructionAt? (sizeOfCode before) =
          some w.instruction :=
        Chunk.instructionAt?_boundary (by simpa using formed)
      have moves :
          exe.Moves (Chunk.of (before ++ w :: rest ++ after)) ⟨sizeOfCode before, stack⟩
            ⟨sizeOfCode (before ++ [w]), between⟩ := by
        refine ⟨w.instruction, ?_, applied, .inl ?_⟩
        · rw [List.append_assoc]
          exact found
        · rw [sizeOfCode_append]
          rfl
      rw [split] at moves formed ⊢
      exact (Relation.ReflTransGen.single moves).trans (ih formed others)

/-- A body whose jumps and labels are level is safe exactly if it can be tracked. -/
theorem safeFrom_iff (formed : Formed code) (level : exe.Level code start) :
    exe.SafeFrom (Chunk.of code) start ↔ (exe.track code start).isSome := by
  constructor
  · intro safe
    cases tracked : exe.track code start with
    | some final => rfl
    | none =>
        rcases track_stuck tracked with ⟨before, w, after, middle, rfl, here, failed⟩
        have found := Chunk.instructionAt?_boundary formed
        have leads :
            exe.Leads (Chunk.of ([] ++ before ++ w :: after)) ⟨0, start⟩
              ⟨sizeOfCode before, middle⟩ :=
          leads_track formed here
        rcases safe _ leads with finished | ⟨i, next, other, applied⟩
        · have ended := (Chunk.of (before ++ w :: after)).instructionAt?_end
          rw [← finished, found] at ended
          cases ended
        · rw [found] at other
          cases other
          rw [failed] at applied
          cases applied
  · intro tracked c leads
    rcases onTrack_leads formed level tracked leads with ⟨before, after, rfl, place, here⟩
    cases after with
    | nil =>
        rw [List.append_nil] at formed ⊢
        exact .inl (place.trans (Chunk.of_size formed).symm)
    | cons w rest =>
        rcases track_part tracked with ⟨middle, there, onward⟩
        cases here.symm.trans there
        rcases Option.isSome_iff_exists.mp onward with ⟨final, others⟩
        rcases Option.bind_eq_some_iff.mp others with ⟨next, applied, _⟩
        refine .inr ⟨w.instruction, next, ?_, applied⟩
        rw [place]
        exact Chunk.instructionAt?_boundary formed

end Executable
end StackCompiler
