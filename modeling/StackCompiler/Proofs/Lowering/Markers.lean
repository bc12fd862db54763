import StackCompiler.Proofs.Lowering.Bodies

/-!
When the markers of conditionals are accepted.

The generator accepts markers one by one against a stack of pending labels. Said of the statements
alone: no prefix of a body leaves more conditionals than it entered or has more open than the limit,
and in the end none is open; and all bodies together issue no more ids than fit an operand.
-/
namespace StackCompiler

namespace Stmt

def enters : Stmt → Bool
  | enterIf .. => true
  | _ => false

def leaves : Stmt → Bool
  | leaveIf _ => true
  | _ => false

theorem enters_or_leaves (s : Stmt) : s.enters = false ∨ s.leaves = false := by
  cases s <;> simp [enters, leaves]

end Stmt

/-- With `depth` conditionals open around it, a list of statements never leaves one that is not open
and never has more than `limit` of them open. -/
def Nested (limit depth : Nat) (stmts : List Stmt) : Prop :=
  ∀ n, (stmts.take n).countP Stmt.leaves ≤ depth + (stmts.take n).countP Stmt.enters ∧
    depth + (stmts.take n).countP Stmt.enters ≤ (stmts.take n).countP Stmt.leaves + limit

/-- Every conditional of a body is entered before it is left, is left in the body, and no more than
`limit` are open at a time. -/
def Balanced (limit : Nat) (stmts : List Stmt) : Prop :=
  Nested limit 0 stmts ∧ stmts.countP Stmt.enters = stmts.countP Stmt.leaves

section
variable {limit depth : Nat} {s : Stmt} {rest : List Stmt}

theorem nested_nil : Nested limit depth [] ↔ depth ≤ limit := by
  simp [Nested]

theorem nested_bound {stmts : List Stmt} (nested : Nested limit depth stmts) : depth ≤ limit := by
  simpa using (nested 0).2

theorem nested_first (nested : Nested limit depth (s :: rest)) :
    s.leaves.toNat ≤ depth + s.enters.toNat ∧
      depth + s.enters.toNat ≤ s.leaves.toNat + limit := by
  have here := nested 1
  rw [List.take_succ_cons, List.take_zero, countP_first, countP_first] at here
  simpa using here

theorem nested_cons {after : Nat} (step : s.leaves.toNat + after = depth + s.enters.toNat)
    (single : s.enters = false ∨ s.leaves = false) :
    Nested limit depth (s :: rest) ↔
      depth ≤ limit ∧ s.leaves.toNat ≤ depth ∧ Nested limit after rest := by
  -- The prefix of one statement gives the bounds of the statement only if it does not do both.
  have apart : s.leaves.toNat ≤ depth ∨ s.enters.toNat = 0 := by
    rcases single with none | none <;> simp [none]
  constructor
  · intro nested
    refine ⟨nested_bound nested, ?_, fun n => ?_⟩
    · have here := nested_first nested
      omega
    · have here := nested (n + 1)
      rw [List.take_succ_cons, countP_first, countP_first] at here
      omega
  · rintro ⟨bound, some, nested⟩ n
    cases n with
    | zero => simpa using bound
    | succ n =>
        have here := nested n
        rw [List.take_succ_cons, countP_first, countP_first]
        omega

end

namespace Labels

theorem after_counts {labels : Labels} {s : Stmt} (allowed : labels.Allows s) :
    s.leaves.toNat + (labels.after s).depth = labels.depth + s.enters.toNat ∧
      (labels.after s).issued = labels.issued + s.enters.toNat ∧
      (labels.after s).limit = labels.limit := by
  cases s with
  | enterIf line condition => simp [after, depth, Stmt.leaves, Stmt.enters]
  | leaveIf line =>
      have some : 0 < labels.pending.size := allowed
      simp [after, depth, Stmt.leaves, Stmt.enters]
      omega
  | expr | declare | beginBlock | endBlock => simp [after, Stmt.leaves, Stmt.enters]

theorem allows_step (labels : Labels) (s : Stmt) :
    labels.Allows s ↔ s.leaves.toNat ≤ labels.depth ∧
      (s.enters → labels.depth < labels.limit ∧ labels.issued < UInt16.size) := by
  cases s with
  | enterIf line condition => simp [Allows, Stmt.leaves, Stmt.enters]
  | leaveIf line => simp [Allows, Stmt.leaves, Stmt.enters, Nat.succ_le_iff]
  | expr | declare | beginBlock | endBlock => simp [Allows, Stmt.leaves, Stmt.enters]

theorem allowsAll_iff (labels : Labels) (stmts : List Stmt) (within : labels.depth ≤ labels.limit)
    (narrow : labels.issued ≤ UInt16.size) :
    labels.AllowsAll stmts ↔ Nested labels.limit labels.depth stmts ∧
      labels.issued + stmts.countP Stmt.enters ≤ UInt16.size := by
  induction stmts generalizing labels with
  | nil => simp [AllowsAll, nested_nil, within, narrow]
  | cons s rest ih =>
      have single := s.enters_or_leaves
      rw [AllowsAll, countP_first]
      constructor
      · rintro ⟨allowed, others⟩
        obtain ⟨depth, issued, limit⟩ := after_counts allowed
        obtain ⟨leaves, enters⟩ := (allows_step labels s).mp allowed
        have room : labels.depth + s.enters.toNat ≤ labels.limit ∧
            labels.issued + s.enters.toNat ≤ UInt16.size := by
          cases entered : s.enters with
          | false => exact ⟨within, narrow⟩
          | true => exact enters entered
        obtain ⟨nested, few⟩ := (ih (labels.after s) (by omega) (by omega)).mp others
        rw [limit] at nested
        exact ⟨(nested_cons depth single).mpr ⟨within, leaves, nested⟩, by omega⟩
      · rintro ⟨nested, few⟩
        obtain ⟨opened, bounded⟩ := nested_first nested
        have allowed : labels.Allows s := by
          rw [allows_step]
          rcases single with none | none
          · simp only [none, Bool.toNat_false] at opened ⊢
            exact ⟨by omega, fun entered => by cases entered⟩
          · simp only [none, Bool.toNat_false] at bounded ⊢
            refine ⟨Nat.zero_le _, fun entered => ?_⟩
            simp only [entered, Bool.toNat_true] at bounded few
            exact ⟨by omega, by omega⟩
        obtain ⟨depth, issued, limit⟩ := after_counts allowed
        obtain ⟨_, _, inside⟩ := (nested_cons depth single).mp nested
        have within := nested_bound inside
        refine ⟨allowed, (ih (labels.after s) (by omega) (by omega)).mpr ⟨?_, by omega⟩⟩
        rw [limit]
        exact inside

theorem afterAll_counts (labels : Labels) (stmts : List Stmt) (allowed : labels.AllowsAll stmts) :
    (labels.afterAll stmts).depth + stmts.countP Stmt.leaves =
      labels.depth + stmts.countP Stmt.enters ∧
      (labels.afterAll stmts).issued = labels.issued + stmts.countP Stmt.enters ∧
      (labels.afterAll stmts).limit = labels.limit := by
  induction stmts generalizing labels with
  | nil => simp [afterAll]
  | cons s rest ih =>
      obtain ⟨depth, issued, limit⟩ := after_counts allowed.1
      obtain ⟨depths, ids, limits⟩ := ih (labels.after s) allowed.2
      have step : labels.afterAll (s :: rest) = (labels.after s).afterAll rest := rfl
      rw [step, countP_first, countP_first]
      exact ⟨by omega, by omega, limits.trans limit⟩

theorem allowsBodies_iff (labels : Labels) (bodies : List (List Stmt)) (idle : labels.depth = 0)
    (narrow : labels.issued ≤ UInt16.size) :
    labels.AllowsBodies bodies ↔ (∀ stmts ∈ bodies, Balanced labels.limit stmts) ∧
      labels.issued + bodies.flatten.countP Stmt.enters ≤ UInt16.size := by
  induction bodies generalizing labels with
  | nil => simp [AllowsBodies, narrow]
  | cons stmts rest ih =>
      -- The ids run on through the bodies, but each body starts with nothing open.
      have within : labels.depth ≤ labels.limit := by omega
      have single := allowsAll_iff labels stmts within narrow
      rw [idle] at single
      rw [AllowsBodies, AllowsBody, List.forall_mem_cons, List.flatten_cons, List.countP_append]
      constructor
      · rintro ⟨⟨allowed, closed⟩, others⟩
        obtain ⟨depths, ids, limits⟩ := afterAll_counts labels stmts allowed
        obtain ⟨nested, few⟩ := single.mp allowed
        obtain ⟨balanced, less⟩ := (ih (labels.afterAll stmts) closed (by omega)).mp others
        rw [limits] at balanced
        exact ⟨⟨⟨nested, by omega⟩, balanced⟩, by omega⟩
      · rintro ⟨⟨⟨nested, paired⟩, balanced⟩, few⟩
        have allowed := single.mpr ⟨nested, by omega⟩
        obtain ⟨depths, ids, limits⟩ := afterAll_counts labels stmts allowed
        have closed : (labels.afterAll stmts).depth = 0 := by omega
        refine ⟨⟨allowed, closed⟩,
          (ih (labels.afterAll stmts) closed (by omega)).mpr ⟨?_, by omega⟩⟩
        rw [limits]
        exact balanced

end Labels
end StackCompiler
