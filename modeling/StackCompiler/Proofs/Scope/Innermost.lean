import StackCompiler.Proofs.Typing.Resolution

/-!
The block of a declaration.

The checkpoints tell which blocks were open when a variable was recorded: those in front of it
counted no more variables than there were then. A block goes by the number of checkpoints up to its
BEGIN, and the outermost one, which was never begun, by zero. A name is refused where the innermost
block has it, so no two variables that were recorded in one block share their names.
-/
namespace StackCompiler

def openBlocks : List Checkpoint → List Nat
  | [] => [0]
  | mark :: older =>
      match mark.boundary with
      | .begins => (older.length + 1) :: openBlocks older
      | .ends => (openBlocks older).tail

theorem openBlocks_bounded (marks : List Checkpoint) :
    ∀ block ∈ openBlocks marks, block ≤ marks.length := by
  induction marks with
  | nil => simp [openBlocks]
  | cons mark older ih =>
      rcases mark with ⟨_ | _, vars, functions⟩
      · exact List.forall_mem_cons.mpr
          ⟨Nat.le_refl _, fun block member => Nat.le_succ_of_le (ih block member)⟩
      · exact fun block member => Nat.le_succ_of_le (ih block (List.mem_of_mem_tail member))

theorem openBlocks_descend (marks : List Checkpoint) : (openBlocks marks).Pairwise (· > ·) := by
  induction marks with
  | nil => exact List.pairwise_singleton ..
  | cons mark older ih =>
      rcases mark with ⟨_ | _, vars, functions⟩
      · exact ih.cons fun block member => Nat.lt_succ_of_le (openBlocks_bounded older block member)
      · exact ih.tail

namespace Ledger

/-- The block that was the innermost open one when the variable at a place of the history was
recorded. -/
def blockOf (ledger : Ledger) (index : Nat) : Nat :=
  (openBlocks (ledger.checkpoints.filter (·.vars ≤ index))).headD 0

/-- No two variables that were recorded in one block share a name. -/
def Apart (ledger : Ledger) : Prop :=
  ∀ (i j : Nat) (first second : VariableEntry), ledger.vars[i]? = some first →
    ledger.vars[j]? = some second →
    ledger.blockOf i = ledger.blockOf j → first.name = second.name → i = j

/-- The open blocks are those of the scope, and every variable of an open block is in the scope's
list for it. -/
structure Placed (ledger : Ledger) (v : Visible) : Prop where
  marks : ∀ mark ∈ ledger.checkpoints, mark.vars ≤ ledger.vars.size
  levels : (openBlocks ledger.checkpoints).length = v.outer.length + 1
  listed : ∀ block ∈ (openBlocks ledger.checkpoints).zip (v.inner :: v.outer),
    ∀ index < ledger.vars.size, ledger.blockOf index = block.1 →
    index ∈ block.2.map Named.index
  apart : ledger.Apart

section
variable {ledger next : Ledger} {v : Visible} {named : List Named}

theorem placed_start (limit : Nat) : (empty limit).Placed .start where
  marks := List.forall_mem_nil _
  levels := rfl
  listed := fun _ _ index below => absurd below (Nat.not_lt_zero index)
  apart := fun i _ _ _ recorded => by simp [empty] at recorded

theorem placed_kept (placed : ledger.Placed v) (vars : next.vars = ledger.vars)
    (marks : next.checkpoints = ledger.checkpoints) : next.Placed v := by
  rcases ledger with ⟨_, _, _, _, _⟩
  rcases next with ⟨_, _, _, _, _⟩
  subst vars marks
  exact ⟨placed.marks, placed.levels, placed.listed, placed.apart⟩

theorem blockOf_bounded (ledger : Ledger) (index : Nat) :
    ledger.blockOf index ≤ ledger.checkpoints.length := by
  have fewer :=
    List.length_filter_le (fun mark : Checkpoint => mark.vars ≤ index) ledger.checkpoints
  unfold blockOf
  cases blocks : openBlocks (ledger.checkpoints.filter (·.vars ≤ index)) with
  | nil => exact Nat.zero_le _
  | cons block around =>
      exact Nat.le_trans (openBlocks_bounded _ block (by simp [blocks])) fewer

theorem blockOf_next (marks : ∀ mark ∈ ledger.checkpoints, mark.vars ≤ ledger.vars.size) :
    ledger.blockOf ledger.vars.size = (openBlocks ledger.checkpoints).headD 0 := by
  unfold blockOf
  rw [List.filter_eq_self.mpr fun mark member => decide_eq_true (marks mark member)]

theorem blockOf_crossed {mark : Checkpoint} (after : next.checkpoints = mark :: ledger.checkpoints)
    (here : mark.vars = ledger.vars.size) {index : Nat} (below : index < ledger.vars.size) :
    next.blockOf index = ledger.blockOf index := by
  unfold blockOf
  rw [after, List.filter_cons_of_neg (by simp only [decide_eq_true_eq]; omega)]

theorem apart_crossed (apart : ledger.Apart) {mark : Checkpoint} (kept : next.vars = ledger.vars)
    (after : next.checkpoints = mark :: ledger.checkpoints) (here : mark.vars = ledger.vars.size) :
    next.Apart := by
  intro i j first second found other same
  rw [kept] at found other
  have iBelow := (Array.getElem?_eq_some_iff.mp found).1
  have jBelow := (Array.getElem?_eq_some_iff.mp other).1
  rw [blockOf_crossed after here iBelow, blockOf_crossed after here jBelow] at same
  exact apart i j first second found other same

theorem marks_crossed (placed : ledger.Placed v) {mark : Checkpoint}
    (kept : next.vars = ledger.vars)
    (after : next.checkpoints = mark :: ledger.checkpoints) (here : mark.vars = ledger.vars.size) :
    ∀ mark ∈ next.checkpoints, mark.vars ≤ next.vars.size := by
  rw [after, kept]
  exact List.forall_mem_cons.mpr ⟨Nat.le_of_eq here, placed.marks⟩

theorem openBlock_marks (opens : ledger.openBlock = .ok next) :
    next.vars = ledger.vars ∧ next.checkpoints =
      ledger.checkpoint .begins :: ledger.checkpoints := by
  unfold openBlock at opens
  split at opens
  · cases opens
  · cases opens
    exact ⟨rfl, rfl⟩

theorem closeBlock_marks (closes : ledger.closeBlock = .ok next) :
    next.vars = ledger.vars ∧ next.checkpoints = ledger.checkpoint .ends :: ledger.checkpoints ∧
      ledger.depth ≠ 0 := by
  unfold closeBlock at closes
  split at closes
  · cases closes
  · rename_i opened
    cases closes
    exact ⟨rfl, rfl, opened⟩

theorem openBlock_placed (placed : ledger.Placed v) (opens : ledger.openBlock = .ok next) :
    next.Placed v.opened := by
  rcases openBlock_marks opens with ⟨kept, after⟩
  have blocks : openBlocks next.checkpoints =
    (ledger.checkpoints.length + 1) :: openBlocks ledger.checkpoints := by
    rw [after]
    rfl
  constructor
  case marks => exact marks_crossed placed kept after rfl
  case levels =>
    rw [blocks]
    exact congrArg (· + 1) placed.levels
  case listed =>
    rw [blocks, kept]
    refine List.forall_mem_cons.mpr
      ⟨fun index below inside => ?_, fun block member index below inside => ?_⟩
    · -- The new block has a number that no variable can have yet.
      rw [blockOf_crossed after rfl below] at inside
      have bounded := ledger.blockOf_bounded index
      simp only at inside
      omega
    · rw [blockOf_crossed after rfl below] at inside
      exact placed.listed block member index below inside
  case apart => exact apart_crossed placed.apart kept after rfl

theorem closeBlock_placed (placed : ledger.Placed v) (depth : ledger.depth = v.outer.length)
    (closes : ledger.closeBlock = .ok next) : next.Placed v.closed := by
  rcases closeBlock_marks closes with ⟨kept, after, opened⟩
  rcases v with ⟨inner, _ | ⟨around, outer⟩, count⟩
  · exact absurd depth opened
  have levels := placed.levels
  have listed := placed.listed
  rcases open_ : openBlocks ledger.checkpoints with _ | ⟨innermost, others⟩
  · simp [open_] at levels
  have blocks : openBlocks next.checkpoints = others := by
    rw [after]
    exact congrArg List.tail open_
  rw [open_] at levels listed
  constructor
  case marks => exact marks_crossed placed kept after rfl
  case levels =>
    rw [blocks]
    exact Nat.succ.inj levels
  case listed =>
    rw [blocks, kept]
    intro block member index below inside
    rw [blockOf_crossed after rfl below] at inside
    exact listed block (List.mem_cons_of_mem _ member) index below inside
  case apart => exact apart_crossed placed.apart kept after rfl

theorem push_recorded {α : Type} {history : Array α} {entry found : α} {index : Nat}
    (recorded : (history.push entry)[index]? = some found) :
    (index < history.size ∧ history[index]? = some found) ∨
      (index = history.size ∧ found = entry) := by
  rw [Array.getElem?_push] at recorded
  split at recorded
  · exact .inr ⟨by assumption, (Option.some.inj recorded).symm⟩
  · exact .inl ⟨(Array.getElem?_eq_some_iff.mp recorded).1, recorded⟩

theorem Placed.unnamed (placed : ledger.Placed v) (reads : ledger.Reads named v) {name : String}
    (new : latestOf name v.inner = none) {innermost : Nat} {others : List Nat}
    (blocks : openBlocks ledger.checkpoints = innermost :: others) {index : Nat}
    {found : VariableEntry} (recorded : ledger.vars[index]? = some found)
    (here : ledger.blockOf index = innermost) : found.name ≠ name := by
  intro same
  have below := (Array.getElem?_eq_some_iff.mp recorded).1
  have first :
      (innermost, v.inner) ∈ (openBlocks ledger.checkpoints).zip (v.inner :: v.outer) := by
      simp [blocks]
  rcases List.mem_map.mp (placed.listed _ first index below here) with ⟨known, member, rfl⟩
  have known_name := reads.vars.names v.inner List.mem_cons_self known member
  rw [recorded] at known_name
  have among : name ∈ v.inner.map Named.name :=
    List.mem_map.mpr ⟨known, member, (Option.some.inj known_name).symm.trans same⟩
  exact Analysis.latestOf_none.mp new among

/-- A variable whose name is new in the innermost block is apart from the others of that block. -/
theorem addVariable_placed (reads : ledger.Reads named v) (placed : ledger.Placed v)
    {entry : VariableEntry} (new : latestOf entry.name v.inner = none) :
    (ledger.addVariable entry).2.Placed
      ⟨⟨entry.name, v.count⟩ :: v.inner, v.outer, v.count + 1⟩ := by
  have size : (ledger.addVariable entry).2.vars.size = ledger.vars.size + 1 := Array.size_push _
  have still : ∀ index, (ledger.addVariable entry).2.blockOf index = ledger.blockOf index :=
    fun _ => rfl
  have marked : (ledger.addVariable entry).2.checkpoints = ledger.checkpoints := rfl
  have own := blockOf_next placed.marks
  rcases blocks : openBlocks ledger.checkpoints with _ | ⟨innermost, others⟩
  · have levels := placed.levels
    simp [blocks] at levels
  rw [blocks, List.headD_cons] at own
  have unnamed {index : Nat} {found : VariableEntry} (recorded : ledger.vars[index]? = some found)
      (here : ledger.blockOf index = innermost) : found.name ≠ entry.name :=
    placed.unnamed reads new blocks recorded here
  constructor
  case marks =>
    intro mark member
    rw [size]
    exact Nat.le_succ_of_le (placed.marks mark member)
  case levels => exact placed.levels
  case listed =>
    have descend := openBlocks_descend ledger.checkpoints
    have listed := placed.listed
    rw [blocks] at descend listed
    rcases List.forall_mem_cons.mp listed with ⟨inside, around⟩
    rw [marked, blocks, size]
    refine List.forall_mem_cons.mpr
      ⟨fun index below here => ?_, fun block member index below here => ?_⟩
    · rw [still] at here
      rcases Nat.lt_succ_iff_lt_or_eq.mp below with earlier | rfl
      · exact List.mem_cons_of_mem _ (inside index earlier here)
      · exact List.mem_cons.mpr (.inl reads.count)
    · rw [still] at here
      rcases Nat.lt_succ_iff_lt_or_eq.mp below with earlier | rfl
      · exact around block member index earlier here
      · -- The new variable is in the innermost block, and so in none around it.
        have lower := (List.pairwise_cons.mp descend).1 block.1 (List.of_mem_zip member).1
        omega
  case apart =>
    intro i j first second found other here same
    rw [still, still] at here
    rcases push_recorded found with ⟨_, earlier⟩ | ⟨rfl, rfl⟩
    · rcases push_recorded other with ⟨_, later⟩ | ⟨rfl, rfl⟩
      · exact placed.apart i j first second earlier later here same
      · exact absurd same (unnamed earlier (here.trans own))
    · rcases push_recorded other with ⟨_, later⟩ | ⟨rfl, rfl⟩
      · exact absurd same.symm (unnamed later (here.symm.trans own))
      · rfl

end
end Ledger
end StackCompiler
