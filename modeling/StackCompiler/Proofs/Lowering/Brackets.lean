import Mathlib.Data.List.Pairwise
import StackCompiler.Proofs.Lowering.Shape

/-!
Jumps and labels as brackets.

A jump opens a bracket and the label of its id closes it. What is pending while statements are
lowered are the brackets that are open, so the code of a body that ends with nothing pending is
nested, and its jumps have the ids that were issued meanwhile. A stream that is nested and lands at
no id twice resolves every jump to a later label.
-/
namespace StackCompiler

def Instruction.jump? : Instruction → Option UInt16
  | ⟨.goto, id :: _⟩ => some id
  | _ => none

def Placed.isBracket (p : Placed) : Bool := p.opcode = .goto ∨ p.opcode = .label

/-- Properly nested, each label with the id of the jump that it closes. -/
inductive Nest : List Placed → Prop
  | nil : Nest []
  | pair {jump label : Placed} {id : UInt16} {inside behind : List Placed}
      (opens : jump.instruction.jump? = some id) (closes : label.instruction.label? = some id)
      (inner : Nest inside) (rest : Nest behind) : Nest (jump :: (inside ++ label :: behind))

/-- The brackets of a stream are nested, and the label table leads each jump to the one label of its
id, which is behind the jump. -/
structure Bracketed (stream : List Placed) : Prop where
  nested : Nest (stream.filter Placed.isBracket)
  resolved : ∀ jump ∈ stream, ∀ id, jump.instruction.jump? = some id →
    ∃ label ∈ stream, label.instruction.label? = some id ∧ jump.offset < label.offset ∧
      (∀ other ∈ stream, other.instruction.label? = some id → other = label) ∧
      (labelTable stream).lookup id = some label.offset

/-! Nested streams. -/

theorem jump_isBracket {p : Placed} {id : UInt16} (opens : p.instruction.jump? = some id) :
    p.isBracket = true := by
  rcases p with ⟨offset, opcode, operands⟩
  cases opcode <;> first | cases opens | rfl

theorem label_no_jump {i : Instruction} {id : UInt16} (closes : i.label? = some id) :
    i.jump? = none := by
  rcases i with ⟨opcode, operands⟩
  cases opcode <;> first | cases closes | rfl

theorem Nest.paired {stream : List Placed} (nested : Nest stream) {jump : Placed} {id : UInt16}
    (member : jump ∈ stream) (opens : jump.instruction.jump? = some id) :
    ∃ label, [jump, label].Sublist stream ∧ label.instruction.label? = some id := by
  induction nested with
  | nil => cases member
  | @pair first last own inside behind starts ends _ _ inner rest =>
      rcases List.mem_cons.mp member with rfl | later
      · have same : own = id := Option.some.inj (starts.symm.trans opens)
        have found : [last].Sublist (inside ++ last :: behind) := by simp
        exact ⟨last, found.cons_cons jump, same ▸ ends⟩
      rcases List.mem_append.mp later with within | after
      · rcases inner within with ⟨label, sublist, closes⟩
        exact ⟨label, (sublist.trans (List.sublist_append_left inside _)).cons first, closes⟩
      rcases List.mem_cons.mp after with rfl | outside
      · rw [label_no_jump ends] at opens
        cases opens
      · rcases rest outside with ⟨label, sublist, closes⟩
        have wider : behind.Sublist (inside ++ last :: behind) :=
          (List.sublist_cons_self last behind).trans (List.sublist_append_right inside _)
        exact ⟨label, (sublist.trans wider).cons first, closes⟩

def Closes : List UInt16 → List Placed → Prop
  | [], stream => Nest stream
  | id :: ids, stream => ∃ inside label behind, stream = inside ++ label :: behind ∧
      label.instruction.label? = some id ∧ Nest inside ∧ Closes ids behind

theorem closes_jump {ids : List UInt16} {stream : List Placed} {jump : Placed} {id : UInt16}
    (opens : jump.instruction.jump? = some id) (closes : Closes (id :: ids) stream) :
    Closes ids (jump :: stream) := by
  rcases closes with ⟨inside, label, behind, rfl, ends, inner, rest⟩
  cases ids with
  | nil => exact .pair opens ends inner rest
  | cons next ids =>
      rcases rest with ⟨middle, outer, outside, rfl, closing, between, others⟩
      have around : Nest (jump :: (inside ++ label :: middle)) := .pair opens ends inner between
      exact ⟨_, outer, outside, by simp, closing, around, others⟩

theorem closes_label {ids : List UInt16} {stream : List Placed} {label : Placed} {id : UInt16}
    (ends : label.instruction.label? = some id) (closes : Closes ids stream) :
    Closes (id :: ids) (label :: stream) :=
  ⟨[], label, stream, rfl, ends, .nil, closes⟩

/-! Streams that land at no id twice. -/

section
variable {stream : List Placed}

theorem label_lands {p : Placed} {id : UInt16} (closes : p.instruction.label? = some id) :
    p.label? = some (id, p.offset) := by
  rw [Placed.label?_eq, closes]
  rfl

theorem label_only (distinct : (stream.filterMap fun p => p.instruction.label?).Nodup)
    {p q : Placed} {id : UInt16} (first : p ∈ stream) (second : q ∈ stream)
    (own : p.instruction.label? = some id)
    (other : q.instruction.label? = some id) : p = q := by
  have apart : stream.Pairwise fun p q => ∀ id, p.instruction.label? = some id →
      ∀ other, q.instruction.label? = some other → id ≠ other :=
        List.pairwise_filterMap.mp distinct
  by_cases same : p = q
  · exact same
  · have symmetric : Std.Symm fun p q : Placed => ∀ id, p.instruction.label? = some id →
        ∀ other, q.instruction.label? = some other → id ≠ other :=
      ⟨fun _ _ ends id own other known equal => ends other known id own equal.symm⟩
    exact absurd rfl (apart.forall first second same id own id other)

/-- Where a label is the only one of its id, the table leads to it. -/
theorem lookup_label {label : Placed} {id : UInt16} (member : label ∈ stream)
    (closes : label.instruction.label? = some id)
    (only : ∀ other ∈ stream, other.instruction.label? = some id → other = label) :
    (labelTable stream).lookup id = some label.offset := by
  rw [lookup_labelTable]
  cases found : (stream.filterMap Placed.label?).lookup id with
  | none =>
      have entry : (id, label.offset) ∈ stream.filterMap Placed.label? :=
        List.mem_filterMap.mpr ⟨label, member, label_lands closes⟩
      have absent := List.lookup_eq_none_iff.mp found _ entry
      simp at absent
  | some offset =>
      rcases List.lookup_eq_some_iff.mp found with ⟨before, after, parts, _⟩
      have entry : (id, offset) ∈ stream.filterMap Placed.label? := by simp [parts]
      rcases List.mem_filterMap.mp entry with ⟨⟨place, instruction⟩, inside, lands⟩
      rw [Placed.label?_eq, Option.map_eq_some_iff] at lands
      rcases lands with ⟨own, closing, same⟩
      cases same
      rw [← only _ inside closing]

/-- What is nested and lands at no id twice resolves every jump. -/
theorem bracketed_of_nest (ascends : stream.Pairwise fun p q => p.offset < q.offset)
    (distinct : (stream.filterMap fun p => p.instruction.label?).Nodup)
    (nested : Nest (stream.filter Placed.isBracket)) : Bracketed stream := by
  constructor
  · exact nested
  · intro jump member id opens
    have bracket : jump ∈ stream.filter Placed.isBracket :=
      List.mem_filter.mpr ⟨member, jump_isBracket opens⟩
    rcases nested.paired bracket opens with ⟨label, sublist, closes⟩
    have order := sublist.trans List.filter_sublist
    have inside : label ∈ stream := order.subset (by simp)
    have only : ∀ other ∈ stream, other.instruction.label? = some id → other = label :=
      fun other second same => label_only distinct second inside same closes
    have later : jump.offset < label.offset := by simpa using ascends.sublist order
    exact ⟨label, inside, closes, later, only, lookup_label inside closes only⟩

end

/-! Code. -/

def streamOf (code : List Written) : List Placed := placedFrom 0 (instructionsOf code)

def brackets (offset : Nat) (code : List Written) : List Placed :=
  (placedFrom offset (instructionsOf code)).filter Placed.isBracket

def jumped (code : List Written) : List UInt16 := (instructionsOf code).filterMap Instruction.jump?

theorem brackets_append (offset : Nat) (code more : List Written) :
    brackets offset (code ++ more) =
      brackets offset code ++ brackets (offset + sizeOfCode code) more := by
  rw [brackets, instructionsOf_append, placedFrom_append, List.filter_append]
  rfl

theorem jumped_append (code more : List Written) :
    jumped (code ++ more) = jumped code ++ jumped more := by
  rw [jumped, instructionsOf_append, List.filterMap_append]
  rfl

section
variable {code : List Written}

theorem brackets_of_plain (plain : ∀ w ∈ code, w.Plain) (offset : Nat) :
    brackets offset code = [] := by
  induction code generalizing offset with
  | nil => rfl
  | cons w rest ih =>
      rcases List.forall_mem_cons.mp plain with ⟨⟨_, apart⟩, others⟩
      have none : Placed.isBracket ⟨offset, w.instruction⟩ = false := by
        simp [Placed.isBracket, Placed.opcode, apart]
      exact (List.filter_cons_of_neg (by simp [none])).trans (ih others _)

theorem jumped_of_plain (plain : ∀ w ∈ code, w.Plain) : jumped code = [] := by
  apply List.filterMap_eq_nil_iff.mpr
  intro i member
  rcases List.mem_map.mp member with ⟨w, inside, rfl⟩
  rcases plain w inside with ⟨_, apart, _⟩
  rcases instruction : w.instruction with ⟨opcode, operands⟩
  rw [instruction] at apart
  cases opcode <;> first | rfl | exact absurd rfl apart

end

namespace Lowering

theorem jumped_code (s : Stmt) (base : Nat) (labels : Labels) :
    jumped (s.code base labels) = if s.enters then [.ofNat labels.issued] else [] := by
  cases s with
  | enterIf line condition =>
      show jumped (condition.code base true ++ indexed line .goto labels.issued) = _
      rw [jumped_append, jumped_of_plain (condition.code_plain _ _)]
      rfl
  | leaveIf line =>
      show jumped (labels.pending.back?.elim [] _) = []
      cases labels.pending.back? <;> rfl
  | expr | declare | beginBlock | endBlock =>
      exact jumped_of_plain (Stmt.code_plain base labels rfl rfl)

/-- The jumps of a body have the ids that it issues, in their order. -/
theorem jumped_stmts (base : Nat) {labels : Labels} (stmts : List Stmt)
    (allowed : labels.AllowsAll stmts) :
    (jumped (codeOfStmts base labels stmts)).map UInt16.toNat =
      List.range' labels.issued (stmts.countP Stmt.enters) := by
  induction stmts generalizing base labels with
  | nil => rfl
  | cons s rest ih =>
      have later := ih (base + s.constants.length) allowed.2
      have issued := (Labels.after_counts allowed.1).2.1
      rw [codeOfStmts, jumped_append, jumped_code, List.map_append, later, issued, countP_first]
      cases entered : s.enters with
      | false => simp
      | true =>
          have small : (UInt16.ofNat labels.issued).toNat = labels.issued :=
            UInt16.toNat_ofNat_of_lt' (((labels.allows_step s).mp allowed.1).2 entered).2
          simp [small, Nat.add_comm 1, List.range'_succ]

/-- The code of statements closes what is pending, the innermost first. -/
theorem stmts_close (base : Nat) {labels : Labels} (stmts : List Stmt)
    (allowed : labels.AllowsAll stmts) (closed : (labels.afterAll stmts).depth = 0) (offset : Nat) :
    Closes labels.pending.toList.reverse (brackets offset (codeOfStmts base labels stmts)) := by
  induction stmts generalizing base labels offset with
  | nil =>
      have idle : labels.pending = #[] := Array.eq_empty_of_size_eq_zero closed
      rw [idle]
      exact .nil
  | cons s rest ih =>
      have later :=
        ih (base + s.constants.length) allowed.2 closed (offset + sizeOfCode (s.code base labels))
      rw [codeOfStmts, brackets_append]
      cases s with
      | enterIf line condition =>
          have opened : (labels.after (.enterIf line condition)).pending.toList.reverse =
              .ofNat labels.issued :: labels.pending.toList.reverse := by simp [Labels.after]
          rw [opened] at later
          have own : brackets offset ((Stmt.enterIf line condition).code base labels) =
              [⟨offset + sizeOfCode (condition.code base true),
                ⟨.goto, [.ofNat labels.issued]⟩⟩] := by
            rw [Stmt.code, brackets_append, brackets_of_plain (condition.code_plain _ _)]
            rfl
          rw [own]
          exact closes_jump rfl later
      | leaveIf line =>
          rcases Labels.allows_leave allowed.1 with ⟨others, id, parts, below⟩
          have top : labels.pending.toList.reverse = id :: others.toList.reverse := by simp [parts]
          have own : brackets offset ((Stmt.leaveIf line).code base labels) =
            [⟨offset, ⟨.label, [id]⟩⟩] := by
            rw [Stmt.code, parts, Array.back?_push]
            rfl
          rw [below] at later
          rw [top, own]
          exact closes_label rfl later
      | expr | declare | beginBlock | endBlock =>
          rw [brackets_of_plain (Stmt.code_plain base labels rfl rfl)]
          exact later

end Lowering

/-! Chunks. -/

/-- Each chunk decodes to a stream that is bracketed, and the ids of the jumps, read through the
chunks in their order, are `count` successive ones from `first` on. -/
def BracketedFrom (first count : Nat) (chunks : List Chunk) : Prop :=
  ∃ streams : List (List Placed), chunks.map Chunk.instructions = streams.map .ok ∧
    (∀ stream ∈ streams, Bracketed stream) ∧
    (streams.flatten.filterMap fun p => p.instruction.jump?).map UInt16.toNat =
      List.range' first count

theorem bracketedFrom_cons {first count more : Nat} {chunk : Chunk} {chunks : List Chunk}
    (own : BracketedFrom first count [chunk]) (others : BracketedFrom (first + count) more chunks) :
    BracketedFrom first (count + more) (chunk :: chunks) := by
  rcases own with ⟨streams, decoded, bracketed, ids⟩
  rcases others with ⟨later, rest, nested, behind⟩
  refine ⟨streams ++ later, ?_, ?_, ?_⟩
  · rw [List.map_append, ← decoded, ← rest]
    rfl
  · exact List.forall_mem_append.mpr ⟨bracketed, nested⟩
  · rw [List.flatten_append, List.filterMap_append, List.map_append, ids, behind,
      List.range'_append_1]

theorem filterMap_streamOf {β : Type} (part : Instruction → Option β) (code : List Written) :
    (streamOf code).filterMap (fun p => part p.instruction) =
      (instructionsOf code).filterMap part := by
  calc (streamOf code).filterMap (fun p => part p.instruction)
      = ((streamOf code).map Placed.instruction).filterMap part := List.filterMap_map.symm
    _ = (instructionsOf code).filterMap part := by rw [streamOf, placedFrom_instructions]

theorem instructions_of {code : List Written} (formed : Formed code) :
    (Chunk.of code).instructions = .ok (streamOf code) := by
  rw [Chunk.instructions, Chunk.of_bytes, disassemble_encoded _ (instructionsOf_formed formed)]
  rfl

theorem chunk_bracketed {first count : Nat} {code : List Written} (formed : Formed code)
    (distinct : (landed code).Nodup) (nested : Nest (brackets 0 code))
    (ids : (jumped code).map UInt16.toNat = List.range' first count) :
    BracketedFrom first count [Chunk.of code] := by
  have lands : ((streamOf code).filterMap fun p => p.instruction.label?).Nodup := by
    rw [filterMap_streamOf]
    exact distinct
  refine ⟨[streamOf code], by simp [instructions_of formed], ?_, ?_⟩
  · exact List.forall_mem_singleton.mpr (bracketed_of_nest (placedFrom_ascends 0 _) lands nested)
  · rw [List.flatten_singleton, filterMap_streamOf]
    exact ids

theorem bracketed_lands {first count : Nat} {code : List Written} (formed : Formed code)
    (bracketed : BracketedFrom first count [Chunk.of code]) :
    ∀ id ∈ jumped code, id ∈ landed code := by
  intro id member
  rcases bracketed with ⟨streams, decoded, each, _⟩
  have inside : streamOf code ∈ streams := by
    have among : (Chunk.of code).instructions ∈ streams.map .ok := decoded ▸ List.mem_cons_self
    rw [instructions_of formed] at among
    rcases List.mem_map.mp among with ⟨stream, found, same⟩
    exact Except.ok.inj same ▸ found
  rw [jumped, ← filterMap_streamOf] at member
  rcases List.mem_filterMap.mp member with ⟨jump, here, opens⟩
  rcases (each _ inside).resolved jump here id opens with ⟨label, there, closes, _⟩
  rw [landed, ← filterMap_streamOf]
  exact List.mem_filterMap.mpr ⟨label, there, closes⟩

namespace Lowering

/-- The chunk of a body: code without brackets and then the code of its statements. -/
theorem body_bracketed {start : List Written} (plain : ∀ w ∈ start, w.Plain) (base : Nat)
    {labels : Labels} {stmts : List Stmt} (idle : labels.depth = 0)
    (allowed : labels.AllowsBody stmts) :
    BracketedFrom labels.issued (stmts.countP Stmt.enters)
      [Chunk.of (start ++ codeOfStmts base labels stmts)] := by
  apply chunk_bracketed
  · exact formed_append.mpr ⟨formed_of_plain plain, codeOfStmts_formed base labels stmts⟩
  · rw [landed_append, landed_of_plain plain]
    exact (landed_distinct base stmts (Labels.distinct_idle idle) allowed.1).1
  · have none : labels.pending = #[] := Array.eq_empty_of_size_eq_zero idle
    have closes := stmts_close base stmts allowed.1 allowed.2 (0 + sizeOfCode start)
    rw [none] at closes
    rw [brackets_append, brackets_of_plain plain]
    exact closes
  · rw [jumped_append, jumped_of_plain plain]
    exact jumped_stmts base stmts allowed.1

theorem functions_bracketed (fs : List Function) (base : Nat) (labels : Labels)
    (idle : labels.depth = 0) (allowed : labels.AllowsBodies (fs.map Function.stmts)) :
    BracketedFrom labels.issued ((fs.map Function.stmts).flatten.countP Stmt.enters)
      ((compiledFunctions base labels fs).filterMap CompiledFunction.code) := by
  induction fs generalizing base labels with
  | nil => exact ⟨[], rfl, List.forall_mem_nil _, rfl⟩
  | cons f rest ih =>
      have others := ih (base + f.constants.length) (labels.afterAll f.stmts) allowed.1.2 allowed.2
      have issued := (Labels.afterAll_counts labels f.stmts allowed.1.1).2.1
      rw [issued] at others
      rw [List.map_cons, List.flatten_cons, List.countP_append, compiledFunctions]
      cases host : f.isHost with
      | true =>
          have none : f.stmts = [] := by
            have bodiless : f.body = Option.none := by simpa [Function.isHost] using host
            simp [Function.stmts, bodiless]
          have chunkless : (f.compiled base labels).code = Option.none := by
            simp [Function.compiled, host]
          rw [List.filterMap_cons_none chunkless]
          simpa [none] using others
      | false =>
          have plain : ∀ w ∈ f.stored.reverse.flatMap (Param.code f.line), w.Plain := by
            simp only [List.forall_mem_flatMap]
            exact fun param _ => param.code_plain f.line
          have own : (f.compiled base labels).code = some (Chunk.of (f.code base labels)) := by
            simp [Function.compiled, host]
          rw [List.filterMap_cons_some own]
          exact bracketedFrom_cons (body_bracketed plain base idle allowed.1) others

end Lowering

namespace Program
open Lowering

/-- In the code of a program, jumps and labels are nested in each chunk, every jump is resolved to
the one label of its id, behind it, and the jumps are numbered from 0 on through the top-level code
and the functions in order, one for each conditional. -/
theorem lower_bracketed (p : Program) (options : LoweringOptions) (exe : Executable)
    (lowered : p.lower options = .ok exe) :
    BracketedFrom 0 (p.bodies.flatten.countP Stmt.enters) (exe.bodies.map Prod.snd) := by
  have yields := p.lower_yields options
  rw [lowered] at yields
  rcases yields with ⟨rfl, _, ⟨top, bodies⟩, _⟩
  have idle : (Labels.empty options.labelLimit).depth = 0 := rfl
  have code := body_bracketed (List.forall_mem_nil Written.Plain) 0 idle top
  have functions :=
    functions_bracketed p.functions (p.statements.flatMap Stmt.constants).length _ top.2 bodies
  have issued := (Labels.afterAll_counts _ p.statements top.1).2.1
  rw [issued] at functions
  have whole := bracketedFrom_cons code functions
  have chunks : (p.executable (.empty options.labelLimit)).bodies.map Prod.snd =
      (p.executable (.empty options.labelLimit)).code ::
        (p.executable (.empty options.labelLimit)).functions.filterMap CompiledFunction.code := by
    simp [Executable.bodies, List.map_filterMap, Function.comp_def]
  rw [chunks, Program.bodies, List.flatten_cons, List.countP_append]
  exact whole

def branching : Program :=
  ⟨[.stmt (.enterIf 1 (.bool ⟨1, none⟩ true)), .stmt (.enterIf 2 (.bool ⟨2, none⟩ false)),
    .stmt (.leaveIf 3), .function ⟨"chosen", .int, [],
      some [.enterIf 5 (.bool ⟨5, none⟩ true), .leaveIf 6], 4, some ⟨0⟩⟩,
    .stmt (.leaveIf 7)]⟩

theorem branching_bracketed :
    ∃ exe, branching.lower ⟨0, 10, 2⟩ = .ok exe ∧
      BracketedFrom 0 3 (exe.bodies.map Prod.snd) := by
  have succeeds : (branching.lower ⟨0, 10, 2⟩).isOk = true := by decide +kernel
  rcases exists_of_isOk succeeds with ⟨exe, ran⟩
  exact ⟨exe, ran, lower_bracketed branching ⟨0, 10, 2⟩ exe ran⟩

end Program

end StackCompiler
