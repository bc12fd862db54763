import Mathlib.Data.List.Forall2
import StackCompiler.Proofs.Machine.KindSafety
import StackCompiler.Proofs.Machine.Paths
import StackCompiler.Proofs.Typing.Blocks

/-!
When the stack pointers that a body saves are balanced on every path.

Blocks save and restore the stack pointer, and conditionals jump, but the markers of the two are
flat and pair up independently of each other. That a body keeps its blocks makes straight execution
balanced. A jump skips what lies between the two markers of a conditional, so the other paths are
balanced exactly if every conditional is left at the depth of blocks at which it was entered.
-/
namespace StackCompiler

namespace Stmt

def rise (s : Stmt) : Int := s.opens.toNat - s.closes.toNat

/-- The depths of blocks at which the open conditionals were entered, the innermost first, behind a
statement. -/
def marked (s : Stmt) (depth : Int) (marks : List Int) : List Int :=
  match s with
  | enterIf .. => depth :: marks
  | leaveIf _ => marks.tail
  | expr .. | declare .. | beginBlock _ | endBlock _ => marks

end Stmt

/-- Every conditional is left at the depth of blocks at which it was entered, if that depth is in
`marks` for those that are open before the statements. -/
def AlignedFrom : Int → List Int → List Stmt → Prop
  | _, _, [] => True
  | depth, marks, s :: rest =>
      (s.leaves → ∀ mark ∈ marks.head?, mark = depth) ∧
        AlignedFrom (depth + s.rise) (s.marked depth marks) rest

instance : ∀ depth marks stmts, Decidable (AlignedFrom depth marks stmts)
  | _, _, [] => inferInstanceAs (Decidable True)
  | depth, marks, s :: rest =>
      have := instDecidableAlignedFrom (depth + s.rise) (s.marked depth marks) rest
      inferInstanceAs (Decidable (_ ∧ _))

/-- A body that leaves every conditional at the depth of blocks at which it entered it. -/
def Aligned (stmts : List Stmt) : Prop := AlignedFrom 0 [] stmts

instance : DecidablePred Aligned :=
  fun stmts => inferInstanceAs (Decidable (AlignedFrom 0 [] stmts))

theorem alignedFrom_bare {stmts : List Stmt} {depth : Int} {marks : List Int} :
    AlignedFrom depth marks (stmts.map Stmt.bare) ↔ AlignedFrom depth marks stmts := by
  induction stmts generalizing depth marks with
  | nil => exact Iff.rfl
  | cons s rest ih =>
      have same : s.bare.leaves = s.leaves ∧ s.bare.rise = s.rise ∧
        s.bare.marked depth marks = s.marked depth marks := by
        cases s <;> exact ⟨rfl, rfl, rfl⟩
      rw [List.map_cons, AlignedFrom, AlignedFrom, ih, same.1, same.2.1, same.2.2]

theorem aligned_bare {stmts : List Stmt} : Aligned (stmts.map Stmt.bare) ↔ Aligned stmts :=
  alignedFrom_bare

/-! The height of code. -/

theorem Written.computes_rise {w : Written} (computes : w.Computes) : w.instruction.rise = 0 := by
  rcases w with ⟨line, opcode, operands⟩
  rcases computes with ⟨_, marker⟩
  cases opcode <;> first | rfl | cases marker

section
variable {code : List Written} (computes : ∀ w ∈ code, w.Computes)
include computes

theorem climb_computes : climb code = 0 := by
  induction code with
  | nil => rfl
  | cons w rest ih =>
      rcases List.forall_mem_cons.mp computes with ⟨own, others⟩
      rw [climb_cons, Written.computes_rise own, ih others, Int.add_zero]

theorem along_computes {holds : Int → Instruction → Prop} {height : Int}
    (each : ∀ w : Written, w.Computes → holds height w.instruction) :
    Along holds height code := by
  induction code with
  | nil => trivial
  | cons w rest ih =>
      rcases List.forall_mem_cons.mp computes with ⟨own, others⟩
      rw [Along, Written.computes_rise own, Int.add_zero]
      exact ⟨each w own, ih others⟩

theorem computes_staysUp {height : Int} (start : 0 ≤ height) : Along StaysUp height code := by
  apply along_computes computes
  intro w own
  rw [StaysUp, Written.computes_rise own]
  omega

theorem computes_standsAt (levels : UInt16 → Int) (height : Int) :
    Along (StandsAt levels) height code := by
  apply along_computes computes
  rintro w ⟨_, marker⟩ id (jumps | lands)
  · rw [(Chunk.jump?_goes jumps).1] at marker
    cases marker
  · rw [label?_opcode lands] at marker
    cases marker

end

theorem along_levels {code : List Written} {levels others : UInt16 → Int} {height : Int}
    (same : ∀ id, id ∈ jumped code ∨ id ∈ landed code → levels id = others id)
    (stands : Along (StandsAt others) height code) : Along (StandsAt levels) height code := by
  apply along_iff.mpr
  intro before w after parts id own
  have inside := instruction_among parts
  have used : id ∈ jumped code ∨ id ∈ landed code := by
    rcases own with jumps | lands
    · exact .inl (List.mem_filterMap.mpr ⟨_, inside, jumps⟩)
    · exact .inr (List.mem_filterMap.mpr ⟨_, inside, lands⟩)
  rw [along_iff.mp stands before w after parts id own, same id used]

namespace Lowering
variable {labels : Labels} {height : Int}

theorem climb_stmt (s : Stmt) (base : Nat) (labels : Labels) :
    climb (s.code base labels) = s.rise := by
  cases s with
  | expr line value => exact climb_computes (Stmt.expr_computes line value base labels)
  | declare line decl => exact climb_computes (Stmt.declare_computes line decl base labels)
  | beginBlock line | endBlock line => rfl
  | enterIf line condition =>
      rw [Stmt.code, climb_append, climb_computes (condition.code_computes _ _)]
      rfl
  | leaveIf line =>
      rw [Stmt.code]
      cases labels.pending.back? <;> rfl

theorem climb_stmts (base : Nat) (labels : Labels) (stmts : List Stmt) :
    climb (codeOfStmts base labels stmts) = stmts.countP Stmt.opens - stmts.countP Stmt.closes := by
  induction stmts generalizing base labels with
  | nil => rfl
  | cons s rest ih =>
      rw [codeOfStmts, climb_append, climb_stmt, ih, countP_first, countP_first, Stmt.rise]
      omega

theorem stmt_staysUp (s : Stmt) (base : Nat) (labels : Labels) (start : 0 ≤ height)
    (within : 0 ≤ height + s.rise) :
    Along StaysUp height (s.code base labels) := by
  cases s with
  | expr line value => exact computes_staysUp (Stmt.expr_computes line value base labels) start
  | declare line decl => exact computes_staysUp (Stmt.declare_computes line decl base labels) start
  | beginBlock line | endBlock line => exact ⟨within, trivial⟩
  | enterIf line condition =>
      have condition := condition.code_computes base true
      rw [Stmt.code, along_append, climb_computes condition, Int.add_zero]
      exact ⟨computes_staysUp condition start, within, trivial⟩
  | leaveIf line =>
      rw [Stmt.code]
      cases labels.pending.back? with
      | none => trivial
      | some id => exact ⟨within, trivial⟩

/-- With so many blocks open, statements that never close another one stay up. -/
theorem stmts_stayUp (base : Nat) (labels : Labels) (stmts : List Stmt) {depth : Nat}
    (kept : ∀ n, (stmts.take n).countP Stmt.closes ≤ depth + (stmts.take n).countP Stmt.opens) :
    Along StaysUp depth (codeOfStmts base labels stmts) := by
  induction stmts generalizing base labels depth with
  | nil => trivial
  | cons s rest ih =>
      have first := kept 1
      rw [List.take_succ_cons, countP_first, countP_first, List.take_zero, List.countP_nil,
        List.countP_nil] at first
      rw [codeOfStmts, along_append, climb_stmt]
      constructor
      · apply stmt_staysUp s base labels (Int.natCast_nonneg depth)
        rw [Stmt.rise]
        omega
      · have after : (depth : Int) + s.rise = (depth + s.opens.toNat - s.closes.toNat : Nat) := by
          rw [Stmt.rise]
          omega
        rw [after]
        apply ih
        intro n
        have later := kept (n + 1)
        rw [List.take_succ_cons, countP_first, countP_first] at later
        omega

/-! The levels of jumps and labels are the depths at which conditionals are entered and left. -/

theorem stmt_stands_iff (s : Stmt) (base : Nat) (labels : Labels) {levels : UInt16 → Int} :
    Along (StandsAt levels) height (s.code base labels) ↔
      (s.enters → height = levels (.ofNat labels.issued)) ∧
        (s.leaves → ∀ id ∈ labels.pending.back?, height = levels id) := by
  cases s with
  | expr line value =>
      have stands := computes_standsAt (Stmt.expr_computes line value base labels) levels height
      simp [Stmt.enters, Stmt.leaves, stands]
  | declare line decl =>
      have stands := computes_standsAt (Stmt.declare_computes line decl base labels) levels height
      simp [Stmt.enters, Stmt.leaves, stands]
  | beginBlock line | endBlock line =>
      simp [Stmt.enters, Stmt.leaves, Stmt.code, written, Along, StandsAt, Instruction.jump?,
        Instruction.label?]
  | enterIf line condition =>
      have condition := condition.code_computes base true
      rw [Stmt.code, along_append, climb_computes condition, Int.add_zero]
      simp [Stmt.enters, Stmt.leaves, indexed, Along, StandsAt, Instruction.jump?,
        Instruction.label?, computes_standsAt condition]
  | leaveIf line =>
      rw [Stmt.code]
      cases labels.pending.back? with
      | none => simp [Stmt.enters, Along]
      | some top =>
          simp [Stmt.enters, Stmt.leaves, Along, StandsAt, Instruction.jump?, Instruction.label?]

def marks (labels : Labels) (levels : UInt16 → Int) : List Int :=
  labels.pending.toList.reverse.map levels

theorem marks_head (labels : Labels) (levels : UInt16 → Int) :
    (marks labels levels).head? = labels.pending.back?.map levels := by
  simp [marks]

theorem marks_after (s : Stmt) (labels : Labels) {levels : UInt16 → Int}
    (enters : s.enters → height = levels (.ofNat labels.issued)) :
    marks (labels.after s) levels = s.marked height (marks labels levels) := by
  cases s with
  | enterIf line condition =>
      rw [Stmt.marked, enters rfl]
      simp [marks, Labels.after]
  | leaveIf line => simp [marks, Labels.after, Stmt.marked]
  | expr | declare | beginBlock | endBlock => rfl

/-- Where jumps and labels stand at the levels of their ids, conditionals are left at the depths at
which they were entered. -/
theorem stmts_aligned (stmts : List Stmt) {levels : UInt16 → Int} (base : Nat) (labels : Labels)
    (stands : Along (StandsAt levels) height (codeOfStmts base labels stmts)) :
    AlignedFrom height (marks labels levels) stmts := by
  induction stmts generalizing base labels height with
  | nil => trivial
  | cons s rest ih =>
      rw [codeOfStmts, along_append, climb_stmt, stmt_stands_iff] at stands
      rcases stands with ⟨⟨enters, leaves⟩, later⟩
      have others := ih _ _ later
      rw [marks_after s labels enters] at others
      rw [AlignedFrom, marks_head]
      constructor
      · intro left mark last
        rcases Option.map_eq_some_iff.mp last with ⟨id, top, rfl⟩
        exact (leaves left id top).symm
      · exact others

/-- Code behind the innermost pending label neither jumps to it nor lands at it again. -/
theorem popped_unused {labels : Labels} {others : Array UInt16} {top : UInt16} {line : Nat}
    {rest : List Stmt} (distinct : labels.Distinct)
    (allowed : labels.AllowsAll (.leaveIf line :: rest))
    (parts : labels.pending = others.push top)
    (below : (labels.after (.leaveIf line)).pending = others) (base : Nat)
    {id : UInt16} (used : id ∈ jumped (codeOfStmts base (labels.after (.leaveIf line)) rest) ∨
      id ∈ landed (codeOfStmts base (labels.after (.leaveIf line)) rest)) : id ≠ top := by
  rintro rfl
  have issued : id.toNat < labels.issued := distinct.issued id (by simp [parts])
  have fresh : ¬ labels.issued ≤ id.toNat := Nat.not_le.mpr issued
  rcases used with jumps | lands
  · have among := List.mem_map_of_mem (f := UInt16.toNat) jumps
    rw [jumped_stmts base rest allowed.2] at among
    exact fresh (List.mem_range'_1.mp among).1
  · have known :=
      (landed_distinct base rest (Labels.distinct_after distinct allowed.1) allowed.2).2 id lands
    rw [below] at known
    exact known.elim (distinct.top_once parts) fresh

/-- The level of the innermost pending label can be set without changing those of the others. -/
theorem marks_set {labels : Labels} {others : Array UInt16} {top : UInt16}
    (distinct : labels.Distinct) (parts : labels.pending = others.push top)
    (levels : UInt16 → Int) (level : Int) :
    marks labels (fun id => if id = top then level else levels id) =
      level :: others.toList.reverse.map levels := by
  have kept :
      ∀ id ∈ others.toList.reverse, (if id = top then level else levels id) = levels id := by
    intro id member
    have other : id ≠ top := by
      rintro rfl
      exact distinct.top_once parts (List.mem_reverse.mp member)
    exact if_neg other
  rw [marks, parts, Array.toList_push, List.reverse_append, List.map_append,
    List.map_congr_left kept]
  simp

/-- Conversely, the depths at which conditionals are entered and left are levels for their
labels. -/
theorem stmts_stand (stmts : List Stmt) {pending : List Int} (base : Nat) {labels : Labels}
    (distinct : labels.Distinct) (allowed : labels.AllowsAll stmts)
    (closed : (labels.afterAll stmts).depth = 0)
    (same : pending.length = labels.depth) (aligned : AlignedFrom height pending stmts) :
    ∃ levels, marks labels levels = pending ∧
      Along (StandsAt levels) height (codeOfStmts base labels stmts) := by
  induction stmts generalizing base labels height pending with
  | nil =>
      have idle : labels.depth = 0 := closed
      have none : pending = [] := List.eq_nil_of_length_eq_zero (same.trans idle)
      have empty : labels.pending = #[] := Array.eq_empty_of_size_eq_zero idle
      exact ⟨fun _ => 0, by simp [marks, empty, none], trivial⟩
  | cons s rest ih =>
      rcases aligned with ⟨left, later⟩
      have size : (s.marked height pending).length = (labels.after s).depth := by
        cases s <;> simp [Stmt.marked, Labels.after, Labels.depth, same]
      rcases ih (base + s.constants.length) (Labels.distinct_after distinct allowed.1) allowed.2
        closed size later with
        ⟨levels, marked, stands⟩
      simp only [codeOfStmts, along_append, climb_stmt, stmt_stands_iff]
      cases s with
      | expr | declare | beginBlock | endBlock =>
          exact ⟨levels, marked,
            ⟨fun entered => (by cases entered), fun left => (by cases left)⟩, stands⟩
      | enterIf line condition =>
          have split : levels (.ofNat labels.issued) = height ∧
            marks labels levels = pending := by
            simpa [marks, Labels.after, Stmt.marked] using marked
          exact ⟨levels, split.2, ⟨fun _ => split.1.symm, fun left => (by cases left)⟩, stands⟩
      | leaveIf line =>
          rcases Labels.allows_leave allowed.1 with ⟨others, top, parts, below⟩
          rcases pending with _ | ⟨mark, outer⟩
          · simp [Labels.depth, parts] at same
          have here : mark = height := left rfl mark rfl
          have outside : others.toList.reverse.map levels = outer := by
            rw [← below]
            exact marked
          -- Behind its label the id is used no more, so its level can be set to the height here.
          refine ⟨fun id => if id = top then height else levels id, ?_,
            ⟨fun entered => (by cases entered), ?_⟩, ?_⟩
          · rw [marks_set distinct parts, outside, here]
          · intro _ id last
            rw [parts, Array.back?_push] at last
            cases last
            exact (if_pos rfl).symm
          · exact along_levels (fun id used =>
              if_neg (popped_unused distinct allowed parts below _ used)) stands

/-- The chunk of a body that keeps its blocks: code without markers and then the code of its
statements. -/
theorem body_balanced_iff {start : List Written} (computes : ∀ w ∈ start, w.Computes)
    (base : Nat) {labels : Labels}
    {stmts : List Stmt} (idle : labels.depth = 0) (allowed : labels.AllowsBody stmts)
    (kept : KeepsBlocks stmts) (even : EvenBlocks stmts) :
    (Chunk.of (start ++ codeOfStmts base labels stmts)).SavesBalanced ↔ Aligned stmts := by
  have plain : ∀ w ∈ start, w.Plain :=
    fun w member => Written.computes_plain (computes w member)
  have formed : Formed (start ++ codeOfStmts base labels stmts) :=
    formed_append.mpr ⟨formed_of_plain plain, codeOfStmts_formed base labels stmts⟩
  have once : (landed (start ++ codeOfStmts base labels stmts)).Nodup := by
    rw [landed_append, landed_of_plain plain]
    exact (landed_distinct base stmts (Labels.distinct_idle idle) allowed.1).1
  have lands := bracketed_lands formed (body_bracketed plain base idle allowed)
  have idleMarks : ∀ levels, marks labels levels = [] := by
    intro levels
    rw [marks, Array.eq_empty_of_size_eq_zero idle]
    rfl
  rw [Chunk.savesBalanced_iff formed once lands]
  simp only [along_append, climb_append, climb_computes computes, Int.zero_add]
  constructor
  · rintro ⟨_, _, levels, _, stands⟩
    have aligned := stmts_aligned stmts base labels stands
    rwa [idleMarks] at aligned
  · intro aligned
    rcases stmts_stand stmts base (Labels.distinct_idle idle) allowed.1 allowed.2
      (List.length_nil.trans idle.symm) aligned with
      ⟨levels, _, stands⟩
    refine ⟨⟨computes_staysUp computes (Int.le_refl 0), ?_⟩, ?_, levels,
      computes_standsAt computes .., stands⟩
    · exact stmts_stayUp base labels stmts fun n => (Nat.zero_add _).symm ▸ kept n
    · rw [climb_stmts, even, Int.sub_self]

theorem functions_balanced (fs : List Function) (base : Nat) {labels : Labels}
    (idle : labels.depth = 0) (allowed : labels.AllowsBodies (fs.map Function.stmts))
    (even : ∀ f ∈ fs, EvenBlocks f.stmts) :
    List.Forall₂ (fun f compiled => KeepsBlocks f.stmts → ∀ chunk ∈ compiled.code,
      (chunk.SavesBalanced ↔ Aligned f.stmts)) fs (compiledFunctions base labels fs) := by
  induction fs generalizing base labels with
  | nil => exact .nil
  | cons f rest ih =>
      rcases List.forall_mem_cons.mp even with ⟨own, others⟩
      apply List.Forall₂.cons
      · intro kept chunk member
        have computes : ∀ w ∈ f.stored.reverse.flatMap (Param.code f.line), w.Computes := by
          simp only [List.forall_mem_flatMap]
          exact fun param _ => param.code_computes f.line
        cases host : f.isHost with
        | true => simp [Function.compiled, host] at member
        | false =>
            obtain rfl : Chunk.of (f.code base labels) = chunk := by
              simpa [Function.compiled, host] using member
            exact body_balanced_iff computes base idle allowed.1 kept own
      · exact ih _ allowed.1.2 allowed.2 others

end Lowering

namespace Program
open Lowering

theorem lower_balanced {p : Program} {options : LoweringOptions} {exe : Executable}
    (lowered : p.lower options = .ok exe) (kept : KeepsBlocks p.statements)
    (even : EvenBlocks p.statements) (bodies : ∀ f ∈ p.functions, EvenBlocks f.stmts) :
    (exe.code.SavesBalanced ↔ Aligned p.statements) ∧
      List.Forall₂ (fun f compiled => KeepsBlocks f.stmts → ∀ chunk ∈ compiled.code,
        (chunk.SavesBalanced ↔ Aligned f.stmts)) p.functions exe.functions := by
  have yields := p.lower_yields options
  rw [lowered] at yields
  rcases yields with ⟨rfl, _, ⟨top, others⟩, _⟩
  have idle : (Labels.empty options.labelLimit).depth = 0 := rfl
  constructor
  · exact body_balanced_iff (List.forall_mem_nil Written.Computes) 0 idle top kept even
  · exact functions_balanced p.functions _ top.2 others bodies

/-- The saves of a compiled body that keeps its blocks are balanced on every path exactly if each of
its conditionals is left at the depth of blocks at which it was entered. The top level always keeps
its blocks. -/
theorem compile_balanced_iff (p : Program) (fresh : p.Fresh) (settings : Settings)
    (exe : Executable) (compiled : (p.compile settings).2 = .ok exe) :
    (exe.code.SavesBalanced ↔ Aligned p.statements) ∧
      List.Forall₂ (fun f compiled => KeepsBlocks f.stmts → ∀ chunk ∈ compiled.code,
        (chunk.SavesBalanced ↔ Aligned f.stmts)) p.functions exe.functions := by
  rcases compile_ok compiled with ⟨ended, clean, lowered⟩
  have sound := analyze_sound fresh ended clean
  have bodies : ∀ f ∈ (p.compile settings).1.functions, EvenBlocks f.stmts :=
    fun f member => analyze_even ended f member (sound.registered member)
  have same : (p.compile settings).1.bare = p := analyze_bare fresh ended
  have statements : p.statements = (p.compile settings).1.statements.map Stmt.bare := by
    rw [← bare_statements, same]
  have functions : p.functions = (p.compile settings).1.functions.map Function.bare := by
    rw [← bare_functions, same]
  rcases analyze_blocks fresh ended with ⟨kept, even⟩
  rw [statements] at kept even ⊢
  rcases lower_balanced lowered (keepsBlocks_bare.mp kept) (evenBlocks_bare.mp even) bodies
    with ⟨top, others⟩
  rw [functions, List.forall₂_map_left_iff]
  simp only [Function.bare_stmts, keepsBlocks_bare, aligned_bare]
  exact ⟨top, others⟩

def aligning : Program :=
  ⟨[.stmt (.enterIf 1 (.bool ⟨1, none⟩ true)), .stmt (.beginBlock 2), .stmt (.endBlock 3),
    .stmt (.leaveIf 4),
    .function ⟨"f", .int, [],
      some [.beginBlock 6, .enterIf 7 (.bool ⟨7, none⟩ true), .leaveIf 8, .endBlock 9], 5, none⟩]⟩

theorem aligning_balanced :
    aligning.Fresh ∧ ∃ exe, (aligning.compile .default).2 = .ok exe ∧
      exe.code.SavesBalanced ∧
      ∀ compiled ∈ exe.functions, ∀ chunk ∈ compiled.code, chunk.SavesBalanced := by
  have fresh : aligning.Fresh := by decide
  have succeeds : (aligning.compile .default).2.isOk = true := by decide +kernel
  rcases exists_of_isOk succeeds with ⟨exe, compiled⟩
  rcases compile_balanced_iff aligning fresh .default exe compiled with ⟨top, functions⟩
  refine ⟨fresh, exe, compiled, top.mpr (by decide), ?_⟩
  generalize exe.functions = found at functions
  intro f member chunk body
  rcases functions with _ | ⟨own, others⟩
  cases others
  cases List.mem_singleton.mp member
  exact (own (by decide) chunk body).mpr (by decide)

/-- A conditional that is entered outside a block and left inside it. -/
def straddling : Program :=
  ⟨[.stmt (.enterIf 1 (.bool ⟨1, none⟩ true)), .stmt (.beginBlock 2), .stmt (.leaveIf 3),
    .stmt (.endBlock 4)]⟩

/-- It is compiled, and the path that jumps restores a stack pointer that it has not saved. -/
theorem straddling_unbalanced :
    straddling.Fresh ∧ ∃ exe, (straddling.compile .default).2 = .ok exe ∧
      ¬ exe.code.SavesBalanced := by
  have fresh : straddling.Fresh := by decide
  have succeeds : (straddling.compile .default).2.isOk = true := by decide +kernel
  have kept : KeepsBlocks (straddling.compile .default).1.statements := by decide +kernel
  have apart : ¬ Aligned (straddling.compile .default).1.statements := by decide +kernel
  rcases exists_of_isOk succeeds with ⟨exe, compiled⟩
  rcases compile_ok compiled with ⟨_, _, lowered⟩
  have balanced := lower_balanced lowered kept rfl (List.forall_mem_nil _)
  exact ⟨fresh, exe, compiled, mt balanced.1.mp apart⟩

end Program
end StackCompiler
