import StackCompiler.Scope.Ledger

/-!
The blocks of a history, read off its checkpoints.

A scan tries the places outside the closed blocks, and `visible` lists them. `Layered` says how that
list falls into the open blocks: the places of the innermost one, then those of the block around it,
and so on. Recording an entry, a BEGIN or an END takes one layering to the next.
-/
namespace StackCompiler.Ledger

def downFrom (start : Nat) : (stop : Nat) → List Nat
  | 0 => []
  | index + 1 => if index < start then [] else index :: downFrom start index

def visible (start : Nat) : (stop : Nat) → List Span → List Nat
  | stop, [] => downFrom start stop
  | stop, block :: older =>
      downFrom (max start block.stop) stop ++ visible start (min stop block.start) older

theorem latest_eq (accepts : Nat → Bool) (start stop : Nat) :
    latest accepts start stop = (downFrom start stop).find? accepts := by
  induction stop with
  | zero => rfl
  | succ index ih =>
      unfold latest downFrom
      by_cases below : index < start
      · simp [below]
      · by_cases hit : accepts index
        · simp [below, hit]
        · simp [below, hit, ih]

theorem scan_eq (accepts : Nat → Bool) (start stop : Nat) (blocks : List Span) :
    scan accepts start stop blocks = (visible start stop blocks).find? accepts := by
  induction blocks generalizing stop with
  | nil => exact latest_eq accepts start stop
  | cons block older ih =>
      rw [scan, visible, List.find?_append, latest_eq, ih]
      cases (downFrom (max start block.stop) stop).find? accepts <;> rfl

theorem lookup_found {α : Type} {history : Array α} {nameOf : α → String}
    {length : Checkpoint → Nat} {marks : List Checkpoint} {name : String} {start stop index : Nat}
    (found : lookup history nameOf length marks name start stop = some index) :
    ∃ entry, history[index]? = some entry ∧ nameOf entry = name := by
  rw [lookup, scan_eq] at found
  have accepted := List.find?_some found
  cases recorded : history[index]? with
  | none => simp [recorded] at accepted
  | some entry => exact ⟨entry, rfl, by simpa [recorded] using accepted⟩

theorem downFrom_empty {start stop : Nat} (bound : stop ≤ start) : downFrom start stop = [] := by
  cases stop with
  | zero => rfl
  | succ index => exact if_pos bound

theorem downFrom_succ {start stop : Nat} (bound : start ≤ stop) :
    downFrom start (stop + 1) = stop :: downFrom start stop :=
  if_neg (Nat.not_lt.mpr bound)

theorem visible_empty {start stop : Nat} (blocks : List Span) (bound : stop ≤ start) :
    visible start stop blocks = [] := by
  induction blocks generalizing stop with
  | nil => exact downFrom_empty bound
  | cons block older ih =>
      rw [visible, downFrom_empty (by omega), ih (by omega)]
      rfl

theorem visible_succ {start stop : Nat} {blocks : List Span} (bound : start ≤ stop)
    (below : ∀ block ∈ blocks, block.start ≤ stop ∧ block.stop ≤ stop) :
    visible start (stop + 1) blocks = stop :: visible start stop blocks := by
  cases blocks with
  | nil => exact downFrom_succ bound
  | cons block older =>
      obtain ⟨starts, stops⟩ := below block List.mem_cons_self
      have reach : max start block.stop ≤ stop := by omega
      have same : min (stop + 1) block.start = min stop block.start := by omega
      rw [visible, downFrom_succ reach, same]
      rfl

/-- Behind a closed block that reaches up to the end, the scan goes on where the block began. -/
theorem visible_closed {start size stop : Nat} (older : List Span) (bound : start ≤ size) :
    visible stop size (⟨start, size⟩ :: older) = visible stop start older := by
  have same : min size start = start := by omega
  rw [visible, downFrom_empty (Nat.le_max_right ..), same]
  rfl

def openMark : (level : Nat) → List Checkpoint → Option (Checkpoint × List Checkpoint)
  | _, [] => none
  | level, mark :: older =>
      match mark.boundary, level with
      | .ends, level => openMark (level + 1) older
      | .begins, 0 => some (mark, older)
      | .begins, level + 1 => openMark level older

section
variable (length : Checkpoint → Nat)

theorem closedBlocks_idle (stop : Nat) (marks : List Checkpoint) :
    closedBlocks length 0 stop marks = closedBlocks length 0 0 marks := by
  induction marks with
  | nil => rfl
  | cons mark older ih =>
      obtain ⟨boundary, vars, functions⟩ := mark
      cases boundary with
      | begins => exact ih
      | ends => rfl

/-- Below an END the outermost closed block begins at the BEGIN that many levels out. -/
theorem closedBlocks_succ (level stop : Nat) (marks : List Checkpoint) :
    closedBlocks length (level + 1) stop marks =
      match openMark level marks with
      | some (mark, older) => ⟨length mark, stop⟩ :: closedBlocks length 0 0 older
      | none => [] := by
  induction marks generalizing level with
  | nil => rfl
  | cons mark older ih =>
      obtain ⟨boundary, vars, functions⟩ := mark
      cases boundary with
      | ends => exact ih (level + 1)
      | begins =>
          cases level with
          | zero =>
              simp only [closedBlocks, openMark]
              rw [closedBlocks_idle]
          | succ level => exact ih level

theorem blockStart_eq (level : Nat) (marks : List Checkpoint) :
    blockStart length level marks = (openMark level marks).elim 0 fun found => length found.1 := by
  induction marks generalizing level with
  | nil => rfl
  | cons mark older ih =>
      obtain ⟨boundary, vars, functions⟩ := mark
      cases boundary with
      | ends => exact ih (level + 1)
      | begins =>
          cases level with
          | zero => rfl
          | succ level => exact ih level

/-- How a history of `size` entries falls into open blocks. For every open block but the outermost
there is its BEGIN, and the blocks around it are those of the checkpoints before that. -/
def Layered : (marks : List Checkpoint) → (size : Nat) → (inner : List Nat) →
    (outer : List (List Nat)) → Prop
  | marks, size, inner, [] =>
      visible 0 size (closedBlocks length 0 0 marks) = inner ∧
      (∀ block ∈ closedBlocks length 0 0 marks, block.start ≤ size ∧ block.stop ≤ size) ∧
      ∀ level, openMark level marks = none
  | marks, size, inner, next :: outer =>
      ∃ mark older, openMark 0 marks = some (mark, older) ∧
        (∀ level, openMark (level + 1) marks = openMark level older) ∧
        visible (length mark) size (closedBlocks length 0 0 marks) = inner ∧
        visible 0 size (closedBlocks length 0 0 marks) =
          inner ++ visible 0 (length mark) (closedBlocks length 0 0 older) ∧
        (∀ block ∈ closedBlocks length 0 0 marks, block.start ≤ size ∧ block.stop ≤ size) ∧
        length mark ≤ size ∧ Layered older (length mark) next outer

variable {length} {marks : List Checkpoint} {size : Nat} {inner next : List Nat}
  {outer : List (List Nat)}

theorem layered_start : Layered length [] 0 [] [] :=
  ⟨rfl, by simp [closedBlocks], fun _ => rfl⟩

theorem layered_bounds (layers : Layered length marks size inner outer) :
    ∀ block ∈ closedBlocks length 0 0 marks, block.start ≤ size ∧ block.stop ≤ size := by
  cases outer with
  | nil => exact layers.2.1
  | cons next outer =>
      obtain ⟨_, _, _, _, _, _, bounds, _, _⟩ := layers
      exact bounds

/-- All that is visible is the entries of the open blocks, from the innermost outwards. -/
theorem visible_layers (layers : Layered length marks size inner outer) :
    visible 0 size (closedBlocks length 0 0 marks) = inner ++ outer.flatten := by
  induction outer generalizing marks size inner with
  | nil => simpa using layers.1
  | cons next outer ih =>
      obtain ⟨mark, older, _, _, _, all, _, _, around⟩ := layers
      rw [all, ih around]
      simp

theorem visible_inner (layers : Layered length marks size inner outer) :
    visible (blockStart length 0 marks) size (closedBlocks length 0 0 marks) = inner := by
  rw [blockStart_eq]
  cases outer with
  | nil =>
      obtain ⟨all, _, unopened⟩ := layers
      rw [unopened]
      exact all
  | cons next outer =>
      obtain ⟨mark, older, opened, _, block, _⟩ := layers
      rw [opened]
      exact block

theorem layered_push (layers : Layered length marks size inner outer) :
    Layered length marks (size + 1) (size :: inner) outer := by
  have bounds := layered_bounds layers
  -- No closed block reaches the new entry, so every scan that gets to it tries it first.
  have wider : ∀ block ∈ closedBlocks length 0 0 marks, block.start ≤ size + 1 ∧
    block.stop ≤ size + 1 :=
    fun block member =>
    ⟨Nat.le_succ_of_le (bounds block member).1, Nat.le_succ_of_le (bounds block member).2⟩
  cases outer with
  | nil =>
      obtain ⟨all, _, unopened⟩ := layers
      exact ⟨by rw [visible_succ (Nat.zero_le _) bounds, all], wider, unopened⟩
  | cons next outer =>
      obtain ⟨mark, older, opened, levels, block, all, _, reach, around⟩ := layers
      refine ⟨mark, older, opened, levels, ?_, ?_, wider, Nat.le_succ_of_le reach, around⟩
      · rw [visible_succ reach bounds, block]
      · rw [visible_succ (Nat.zero_le _) bounds, all]
        rfl

theorem layered_open (mark : Checkpoint) (begins : mark.boundary = .begins)
    (here : length mark = size) (layers : Layered length marks size inner outer) :
    Layered length (mark :: marks) size [] (inner :: outer) := by
  obtain ⟨boundary, vars, functions⟩ := mark
  cases begins
  have bounds := layered_bounds layers
  refine ⟨⟨.begins, vars, functions⟩, marks, rfl, fun _ => rfl, ?_, ?_, bounds,
    Nat.le_of_eq here, ?_⟩
  · exact visible_empty _ (Nat.le_of_eq here.symm)
  · rw [here]
    rfl
  · rw [here]
    exact layers

theorem layered_close (mark : Checkpoint) (ends : mark.boundary = .ends) (here : length mark = size)
    (layers : Layered length marks size inner (next :: outer)) :
    Layered length (mark :: marks) size next outer := by
  obtain ⟨boundary, vars, functions⟩ := mark
  cases ends
  obtain ⟨start, older, opened, levels, _, _, _, reach, around⟩ := layers
  -- The END and the BEGIN it meets make one closed block, and what is older is that of the block
  -- around.
  have blocks : closedBlocks length 0 0 (⟨.ends, vars, functions⟩ :: marks) =
      ⟨length start, size⟩ :: closedBlocks length 0 0 older := by
    refine (closedBlocks_succ length 0 _ marks).trans ?_
    rw [opened, here]
  have marked : ∀ level, openMark level (⟨.ends, vars, functions⟩ :: marks) =
    openMark level older := levels
  have bounds :
      ∀ block ∈ (⟨length start, size⟩ :: closedBlocks length 0 0 older : List Span),
        block.start ≤ size ∧ block.stop ≤ size := by
    intro block member
    rcases List.mem_cons.mp member with rfl | before
    · exact ⟨reach, Nat.le_refl _⟩
    · obtain ⟨starts, stops⟩ := layered_bounds around block before
      exact ⟨Nat.le_trans starts reach, Nat.le_trans stops reach⟩
  cases outer with
  | nil =>
      obtain ⟨all, _, unopened⟩ := around
      refine ⟨?_, by rwa [blocks], fun level => (marked level).trans (unopened level)⟩
      rw [blocks, visible_closed _ reach, all]
  | cons second outer =>
      obtain ⟨mark, oldest, opened, deeper, block, all, _, further, beyond⟩ := around
      refine ⟨mark, oldest, (marked 0).trans opened, ?_, ?_, ?_, by rwa [blocks],
        Nat.le_trans further reach, beyond⟩
      · exact fun level => (marked (level + 1)).trans (deeper level)
      · rw [blocks, visible_closed _ reach, block]
      · rw [blocks, visible_closed _ reach, all]

end

end StackCompiler.Ledger
