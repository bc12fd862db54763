import StackCompiler.Proofs.Lowering.Shape
import StackCompiler.Proofs.Machine.Expressions

/-!
The code of statements does what the statements do.

Between two statements the operand stack is as it was at the start of the body. While a conditional
that did not hold is skipped the machine does not go through the statements at all; it stands at the
label that its jump took it to, and waits for the statements to come there.
-/
namespace StackCompiler.Machine
open Lowering

variable {Bases : Type} (vm : Operations Bases) {exe : Executable} {ledger : Ledger}

/-- A statement that enters no conditional has an effect, and its code leaves the stack as it
was. -/
theorem stmt_runs (fits : exe.Fits ledger) {s : Stmt} (sound : s.Sound ledger)
    (plain : s.enters = false) (base : Nat) (labels : Labels) (memory : Memory Bases)
    (pools : exe.Pools base s.constants) :
    ∃ after, s.eval vm memory = some (after, 0) ∧
      ∀ stack, Runs vm exe (s.code base labels) ⟨stack, memory⟩ ⟨stack, after⟩ := by
  cases s with
  | expr line value =>
      obtain ⟨ty, checked, _⟩ := sound
      have computes : Computes vm exe value := expr_computes fits value checked
      obtain ⟨result, statics, known, runs⟩ := computes base memory.statics pools
      refine ⟨⟨statics, memory.bases⟩, by simp [Stmt.eval, known], fun stack => ?_⟩
      refine runs_append (runs false stack memory.bases) ?_
      cases assigned : value.isAssign with
      | true => rfl
      | false => exact runs_written line rfl
  | declare line decl =>
      obtain ⟨name, ty, init, id⟩ := decl
      obtain ⟨⟨id, rfl, below⟩, typed⟩ := sound
      cases init with
      | none => exact ⟨memory, rfl, fun stack => rfl⟩
      | some init =>
          have computes : Computes vm exe init := expr_computes fits init (typed init rfl).1
          obtain ⟨value, statics, known, runs⟩ := computes_value computes memory.statics pools
          refine ⟨⟨statics.set id value, memory.bases⟩, by simp [Stmt.eval, known], fun stack => ?_⟩
          exact runs_append (runs stack memory.bases)
            (runs_store line stack ⟨statics, memory.bases⟩
            ty.kind value (Nat.lt_of_lt_of_le below fits.vars))
  | beginBlock line =>
      exact ⟨⟨memory.statics, vm.saveBase memory.bases⟩, rfl, fun stack =>
        runs_written line rfl⟩
  | endBlock line =>
      exact ⟨⟨memory.statics, vm.restoreBase memory.bases⟩, rfl, fun stack =>
        runs_written line rfl⟩
  | enterIf line condition => cases plain
  | leaveIf line =>
      refine ⟨memory, rfl, fun stack => ?_⟩
      show Runs vm exe (labels.pending.back?.elim [] _) _ _
      cases labels.pending.back? with
      | none => rfl
      | some id => exact ⟨_, rfl, rfl⟩

theorem labelAt?_of {before after : List Written} {line : Nat} {id : UInt16}
    (formed : Formed (before ++ ⟨line, ⟨.label, [id]⟩⟩ :: after))
    (distinct : (landed (before ++ ⟨line, ⟨.label, [id]⟩⟩ :: after)).Nodup) :
    (Chunk.of (before ++ ⟨line, ⟨.label, [id]⟩⟩ :: after)).labelAt? id =
      some (sizeOfCode before) := by
  have bytes := Chunk.of_bytes (before ++ ⟨line, ⟨.label, [id]⟩⟩ :: after)
  have operands := instructionsOf_formed formed
  rw [instructionsOf_append] at bytes operands
  refine Chunk.labelAt?_encoded bytes operands ?_ rfl
  rw [landed_append] at distinct
  have apart := (List.nodup_append.mp distinct).2.2
  exact fun earlier => apart id earlier id List.mem_cons_self rfl

/-- Where the machine stands in a chunk with statements to come behind the code `before`: at their
code, or, while conditionals are skipped, at the label of the one that did not hold. -/
def Stands (chunk : Chunk) (before : List Written) (labels : Labels) :
    (skipped offset : Nat) → Prop
  | 0, offset => offset = sizeOfCode before
  | skipped + 1, offset => ∃ id, labels.pending[labels.depth - (skipped + 1)]? = some id ∧
      chunk.labelAt? id = some offset

theorem stmt_reaches (fits : exe.Fits ledger) {s : Stmt} (sound : s.Sound ledger) {base : Nat}
    {labels : Labels} (memory : Memory Bases) (pools : exe.Pools base s.constants)
    {before after : List Written} (formed : Formed before) {chunk : Chunk}
    (whole : chunk = Chunk.of (before ++ s.code base labels ++ after)) :
    ∃ next skipped, s.eval vm memory = some (next, skipped) ∧ skipped ≤ s.enters.toNat ∧
      ∀ offset stack, Stands chunk (before ++ s.code base labels) (labels.after s)
        skipped offset →
        Reaches vm exe chunk ⟨sizeOfCode before, ⟨stack, memory⟩⟩ ⟨offset, ⟨stack, next⟩⟩ := by
  subst whole
  cases entered : s.enters with
  | false =>
      obtain ⟨next, known, runs⟩ := stmt_runs vm fits sound entered base labels memory pools
      refine ⟨next, 0, known, Nat.le_refl _, fun offset stack stands => ?_⟩
      cases stands
      exact reaches_line formed (runs stack)
  | true =>
      cases s with
      | expr | declare | beginBlock | endBlock | leaveIf => cases entered
      | enterIf line condition =>
      have computes : Computes vm exe condition := expr_computes fits condition sound.1
      obtain ⟨value, statics, known, runs⟩ := computes_value computes memory.statics pools
      refine ⟨⟨statics, memory.bases⟩, if vm.holds value then 0 else 1,
        by simp [Stmt.eval, known], ?_, ?_⟩
      · split <;> decide
      intro offset stack stands
      let tested := before ++ condition.code base true
      let jumps : Written := ⟨line, ⟨.goto, [.ofNat labels.issued]⟩⟩
      have own : before ++ (Stmt.enterIf line condition).code base labels = tested ++ [jumps] := by
        simp [tested, jumps, Stmt.code, indexed]
      have whole : tested ++ [jumps] ++ after = tested ++ jumps :: after :=
        List.append_cons .. |>.symm
      have formedTested : Formed tested :=
        formed_append.mpr ⟨formed, formed_of_plain (condition.code_plain _ _)⟩
      have computed : Reaches vm exe (Chunk.of (tested ++ jumps :: after)) _ _ :=
        reaches_line formed (runs stack memory.bases)
      rw [own, whole] at stands ⊢
      refine computed.trans (reaches_jump formedTested ?_)
      split
      · rename_i holds
        rw [if_pos holds] at stands
        exact stands
      · rename_i fails
        rw [if_neg fails] at stands
        obtain ⟨id, pending, target⟩ := stands
        have last : UInt16.ofNat labels.issued = id := by
          simpa [Labels.after, Labels.depth] using pending
        rwa [← last] at target

theorem pending_after {labels : Labels} {s : Stmt} {place : Nat} (before : place < labels.depth)
    (after : place < (labels.after s).depth) :
    (labels.after s).pending[place]? = labels.pending[place]? := by
  cases s with
  | enterIf line condition =>
      exact (Array.getElem?_push_lt before).trans (Array.getElem?_eq_getElem before).symm
  | leaveIf line =>
      have inside : place < labels.pending.size - 1 := by
        simpa [Labels.after, Labels.depth] using after
      exact Array.getElem?_pop.trans (if_pos inside)
  | expr | declare | beginBlock | endBlock => rfl

/-- Skipped statements are left at the label of the conditional they belong to. -/
theorem stands_leave {line base : Nat} {labels : Labels} {before after : List Written}
    (formed : Formed (before ++ (Stmt.leaveIf line).code base labels ++ after))
    (distinct : (landed (before ++ (Stmt.leaveIf line).code base labels ++ after)).Nodup)
    (opened : 0 < labels.depth) :
    Stands (Chunk.of (before ++ (Stmt.leaveIf line).code base labels ++ after)) before labels 1
      (sizeOfCode before) := by
  cases last : labels.pending.back? with
  | none =>
      have filled : 0 < labels.pending.size := opened
      simp [Array.back?_eq_none_iff.mp last] at filled
  | some id =>
      have own : (Stmt.leaveIf line).code base labels = [⟨line, ⟨.label, [id]⟩⟩] := by
        simp [Stmt.code, last]
      rw [own, List.append_assoc, List.singleton_append] at formed distinct ⊢
      rw [Array.back?_eq_getElem?] at last
      exact ⟨id, last, labelAt?_of formed distinct⟩

/-- A statement that is skipped with others moves nothing: they are still left at the same label. -/
theorem stands_skip {labels : Labels} {s : Stmt} {before own : List Written} {chunk : Chunk}
    {skipped inside offset : Nat} (opened : skipped < labels.depth)
    (within : inside < (labels.after s).depth)
    (place : (labels.after s).depth - (inside + 1) = labels.depth - (skipped + 1))
    (stands : Stands chunk (before ++ own) (labels.after s) (inside + 1) offset) :
    Stands chunk before labels (skipped + 1) offset := by
  obtain ⟨id, pending, target⟩ := stands
  refine ⟨id, ?_, target⟩
  rw [place, pending_after (by omega) (by omega)] at pending
  exact pending

/-- A skipped statement behind which nothing is skipped leaves the only conditional that was. -/
theorem leaves_last {s : Stmt} {skipped : Nat}
    (remains : 0 = skipped + 1 + s.enters.toNat - s.leaves.toNat) :
    skipped = 0 ∧ ∃ line, s = .leaveIf line := by
  have single : s.leaves.toNat ≤ 1 := Bool.toNat_le _
  cases s with
  | leaveIf line => exact ⟨Nat.eq_zero_of_not_pos fun some => by omega, line, rfl⟩
  | enterIf | expr | declare | beginBlock | endBlock => cases remains

/-- While a statement is skipped the machine stays at the label where it stands, or goes on from
there if the statement ends the conditional that did not hold. -/
theorem stmt_skipped (fits : exe.Fits ledger) {s : Stmt} (sound : s.Sound ledger) {base : Nat}
    {labels : Labels} (allowed : labels.Allows s) (pools : exe.Pools base s.constants)
    {before after all : List Written} (formed : Formed all) (distinct : (landed all).Nodup)
    (whole : all = before ++ s.code base labels ++ after) {skipped offset : Nat}
    (opened : skipped < labels.depth)
    (stands : Stands (Chunk.of all) (before ++ s.code base labels) (labels.after s)
      (skipped + 1 + s.enters.toNat - s.leaves.toNat) offset) :
    ∃ entry, Stands (Chunk.of all) before labels (skipped + 1) entry ∧
      ∀ (stack : List Value) (memory : Memory Bases),
        Reaches vm exe (Chunk.of all) ⟨entry, ⟨stack, memory⟩⟩ ⟨offset, ⟨stack, memory⟩⟩ := by
  have counts := (Labels.after_counts allowed).1
  obtain ⟨count, remains⟩ :
    ∃ count, count = skipped + 1 + s.enters.toNat - s.leaves.toNat := ⟨_, rfl⟩
  rw [← remains] at stands
  cases count with
  | zero =>
      obtain ⟨rfl, line, rfl⟩ := leaves_last remains
      cases stands
      subst whole
      have formedBefore : Formed before := (formed_append.mp (formed_append.mp formed).1).1
      refine ⟨sizeOfCode before, ?_, fun stack memory => ?_⟩
      · exact stands_leave formed distinct opened
      · obtain ⟨_, known, runs⟩ := stmt_runs vm fits sound rfl base labels memory pools
        cases known
        exact reaches_line formedBefore (runs stack)
  | succ inside =>
      exact ⟨offset, stands_skip opened (by omega) (by omega) stands, fun _ _ => .refl⟩

/-- The statements of a body from any of them on: they have an effect, and from where the machine
stands it comes to the end of the chunk with this effect and the stack it had. -/
theorem stmts_reach (fits : exe.Fits ledger) {all : List Written} (formed : Formed all)
    (distinct : (landed all).Nodup) (stmts : List Stmt) (sound : ∀ s ∈ stmts, s.Sound ledger)
    (base : Nat) (labels : Labels) (before : List Written) (skipped : Nat) (memory : Memory Bases)
    (pools : exe.Pools base (stmts.flatMap Stmt.constants))
    (whole : all = before ++ codeOfStmts base labels stmts) (allowed : labels.AllowsBody stmts)
    (opened : skipped ≤ labels.depth) :
    ∃ final offset, evalStmts vm stmts skipped memory = some final ∧
      Stands (Chunk.of all) before labels skipped offset ∧
      ∀ stack, Reaches vm exe (Chunk.of all) ⟨offset, ⟨stack, memory⟩⟩
        ⟨sizeOfCode all, ⟨stack, final⟩⟩ := by
  induction stmts generalizing base labels before skipped memory with
  | nil =>
      have none : labels.depth = 0 := allowed.2
      obtain rfl : skipped = 0 := by omega
      refine ⟨memory, sizeOfCode before, rfl, rfl, fun stack => ?_⟩
      rw [whole, codeOfStmts, List.append_nil]
      exact Relation.ReflTransGen.refl
  | cons s rest ih =>
      obtain ⟨own, others⟩ := List.forall_mem_cons.mp sound
      obtain ⟨first, behind⟩ := Executable.pools_append.mp pools
      have counts := Labels.after_counts allowed.1.1
      have parts : all = before ++ s.code base labels ++
          codeOfStmts (base + s.constants.length) (labels.after s) rest := by
        rw [whole, codeOfStmts, List.append_assoc]
      have formedBefore : Formed before := (formed_append.mp (whole ▸ formed)).1
      have tail : ∀ skipped memory, skipped ≤ (labels.after s).depth → _ :=
        fun skipped memory =>
        ih others (base + s.constants.length) (labels.after s) (before ++ s.code base labels)
          skipped memory behind parts ⟨allowed.1.2, allowed.2⟩
      cases skipped with
      | zero =>
          obtain ⟨next, skipped, known, few, reaches⟩ := stmt_reaches vm fits own memory first
            formedBefore (congrArg Chunk.of parts)
          -- A conditional that does not hold is skipped from its own label on, pending by now.
          have within : skipped ≤ (labels.after s).depth := by
            have apart : s.enters.toNat = 0 ∨ s.leaves.toNat = 0 := by
              rcases s.enters_or_leaves with none | none <;> simp [none]
            omega
          obtain ⟨final, offset, run, stands, onward⟩ := tail skipped next within
          refine ⟨final, sizeOfCode before, ?_, rfl, fun stack =>
            (reaches offset stack stands).trans (onward stack)⟩
          simp [evalStmts, known, run]
      | succ skipped =>
          obtain ⟨final, offset, run, stands, onward⟩ :=
            tail (skipped + 1 + s.enters.toNat - s.leaves.toNat) memory (by omega)
          obtain ⟨entry, waits, stays⟩ := stmt_skipped vm fits own allowed.1.1 first formed distinct
            parts opened stands
          exact ⟨final, entry, run, waits, fun stack => (stays stack memory).trans (onward stack)⟩

end StackCompiler.Machine
