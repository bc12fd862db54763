import StackCompiler.Proofs.Typing.Sealing

/-!
The blocks of the top level.

A function leaves the depth of blocks as it found it, so between the statements of the top level it
does not count. The ledger starts with no block open, refuses to close one that is not open, and has
none open in the end: the statements keep their blocks, wherever functions stand between them.
-/
namespace StackCompiler

namespace Analysis
variable {a : Analysis}

theorem checkFunction_depth (f : Function) (ran : (checkFunction f a).stopped = none) :
    (checkFunction f a).state.ledger.depth = a.ledger.depth := by
  unfold checkFunction at ran ⊢
  split at ran
  · rename_i body _ _ _
    rcases checkBody_ran ran with ⟨ledger, next, _, _, closes, visit⟩
    have level := closeBody_level closes
    have back := closeBlock_depth (closeBody_ok closes)
    rw [visit]
    show next.depth = a.ledger.depth
    omega
  · rfl

theorem items_blocks (items : List Item) (ran : (Visit.each checkItem items a).stopped = none) :
    (∀ n, ((Program.statements ⟨items⟩).take n).countP Stmt.closes ≤
        a.ledger.depth + ((Program.statements ⟨items⟩).take n).countP Stmt.opens) ∧
      (Visit.each checkItem items a).state.ledger.depth +
        (Program.statements ⟨items⟩).countP Stmt.closes =
        a.ledger.depth + (Program.statements ⟨items⟩).countP Stmt.opens := by
  induction items generalizing a with
  | nil => exact ⟨fun n => by simp [Program.statements], rfl⟩
  | cons item rest ih =>
      rcases Visit.each_ran ran with ⟨first, others, visit⟩
      rcases ih others with ⟨within, level⟩
      rw [visit]
      cases item with
      | function f =>
          have same : (checkItem (.function f) a).state.ledger.depth = a.ledger.depth :=
            checkFunction_depth f first
          rw [same] at within level
          exact ⟨within, level⟩
      | stmt s =>
          have step : (checkItem (.stmt s) a).state.ledger.depth + s.closes.toNat =
              a.ledger.depth + s.opens.toNat := checkStmt_depth s first
          have all :
            Program.statements ⟨.stmt s :: rest⟩ = s :: Program.statements ⟨rest⟩ := rfl
          rw [all]
          constructor
          · intro n
            cases n with
            | zero => exact Nat.zero_le _
            | succ n =>
                have later := within n
                rw [List.take_succ_cons, countP_first, countP_first]
                omega
          · rw [countP_first, countP_first]
            simp only [Visit.map]
            omega

theorem numbered_statements (seen : List String) (items : List Item) :
    Program.statements ⟨numbered seen items⟩ = Program.statements ⟨items⟩ := by
  induction items generalizing seen with
  | nil => rfl
  | cons item rest ih =>
      cases item with
      | stmt s => exact congrArg (s :: ·) (ih seen)
      | function f =>
          rw [numbered]
          split <;> exact ih _

end Analysis

namespace Program

/-- At the top level of an analysed program no block is closed that is not open, and none is left
open. -/
theorem analyze_blocks {p : Program} (fresh : p.Fresh) {limit : Nat}
    (ended : (p.analyze (.empty limit)).stopped = none) :
    KeepsBlocks p.statements ∧ EvenBlocks p.statements := by
  have empty : (Analysis.mk (.empty limit) #[]).ledger.Reads [] .start := reads_empty limit
  rcases Analysis.register_numbers p.items fresh empty rfl with ⟨_, nodes, _, named, reads, _⟩
  rcases analyze_ran ended with ⟨ran, closed, _⟩
  rcases Analysis.items_blocks _ ran with ⟨within, level⟩
  have top :
      Program.statements
        ⟨(Visit.each Analysis.registerItem p.items ⟨.empty limit, #[]⟩).node⟩ =
        p.statements := by
    rw [nodes]
    exact Analysis.numbered_statements [] p.items
  have start :
      (Visit.each Analysis.registerItem p.items ⟨.empty limit, #[]⟩).state.ledger.depth = 0 :=
      reads.depth
  rw [top, start] at within level
  rw [closed] at level
  constructor
  · intro n
    have bound := within n
    omega
  · rw [EvenBlocks]
    omega

end Program
end StackCompiler
