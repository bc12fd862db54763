import Mathlib.Order.Bounds.Basic
import StackCompiler.Proofs.Scope.Frames

/-!
Searching from a border.

A search looks at the checkpoints that a border knows of and at the entries below it, whatever was
recorded later and whether or not the three numbers of the border belong together. It finds the
latest entry of the name that no closed block hides. Blocks are found by reading the checkpoints
backwards, and which they are is said here without reading: a BEGIN and an END with boundaries
between them that pair up.
-/
namespace StackCompiler.Ledger

/-- Checkpoints, the first one first, of which every BEGIN is closed and every END closes one. -/
inductive Paired : List Checkpoint → Prop
  | nil : Paired []
  | append {first second : List Checkpoint} : Paired first → Paired second →
    Paired (first ++ second)
  | block {opening closing : Checkpoint} {inside : List Checkpoint} : opening.boundary = .begins →
      Paired inside → closing.boundary = .ends → Paired (opening :: inside ++ [closing])

/-- A BEGIN and the END that closes it. -/
def Matched (marks : List Checkpoint) (opening closing : Checkpoint) : Prop :=
  ∃ before inside after, marks = before ++ opening :: (inside ++ closing :: after) ∧
    opening.boundary = .begins ∧ Paired inside ∧ closing.boundary = .ends

/-- A closed block holds the place. -/
def Hides (length : Checkpoint → Nat) (marks : List Checkpoint) (index : Nat) : Prop :=
  ∃ opening closing, Matched marks opening closing ∧ length opening ≤ index ∧
    index < length closing

/-- A place of a history below `stop` that holds an entry of the name and that no closed block
hides. -/
structure Seen {α : Type} (history : Array α) (nameOf : α → String)
    (length : Checkpoint → Nat)
    (marks : List Checkpoint) (name : String) (stop index : Nat) : Prop where
  below : index < min stop history.size
  named : (history[index]?).map nameOf = some name
  outside : ¬ Hides length marks index

/-! Pairing. -/

def weight : Boundary → Int
  | .begins => 1
  | .ends => -1

def net : List Checkpoint → Int
  | [] => 0
  | mark :: rest => weight mark.boundary + net rest

theorem net_append (first second : List Checkpoint) :
    net (first ++ second) = net first + net second := by
  induction first with
  | nil => exact (Int.zero_add _).symm
  | cons mark rest ih => rw [List.cons_append, net, net, ih, Int.add_assoc]

theorem net_begins {mark : Checkpoint} (begins : mark.boundary = .begins)
    (marks : List Checkpoint) :
    net (mark :: marks) = 1 + net marks := by
  rw [net, begins]
  rfl

theorem net_ends {mark : Checkpoint} (ends : mark.boundary = .ends) : net [mark] = -1 := by
  rw [net, ends]
  rfl

/-- No block is closed that was not opened here. -/
def Keeps (marks : List Checkpoint) : Prop :=
  ∀ before after, marks = before ++ after → 0 ≤ net before

theorem keeps_begins {mark : Checkpoint} {marks : List Checkpoint}
    (begins : mark.boundary = .begins)
    (keeps : ∀ before after, marks = before ++ after → -1 ≤ net before) :
    Keeps (mark :: marks) := by
  intro before after parts
  cases before with
  | nil => exact Int.le_refl 0
  | cons first before =>
      rcases List.cons.inj parts with ⟨rfl, later⟩
      have bound := keeps before after later
      rw [net_begins begins]
      omega

theorem paired_keeps {marks : List Checkpoint} (paired : Paired marks) :
    net marks = 0 ∧ Keeps marks := by
  induction paired with
  | nil =>
      refine ⟨rfl, fun before after parts => ?_⟩
      rw [(List.append_eq_nil_iff.mp parts.symm).1]
      exact Int.le_refl 0
  | append _ _ first second =>
      refine ⟨by rw [net_append, first.1, second.1]; rfl, fun before after parts => ?_⟩
      rcases List.append_eq_append_iff.mp parts with ⟨more, rfl, rest⟩ | ⟨more, rest, _⟩
      · rw [net_append, first.1]
        have bound := second.2 more after rest
        omega
      · exact first.2 before more rest
  | block begins _ ends inner =>
      rename_i opening closing inside
      constructor
      · rw [net_append, net_begins begins, net_ends ends, inner.1]
        rfl
      · rw [List.cons_append]
        refine keeps_begins begins fun before after parts => ?_
        rcases List.append_eq_append_iff.mp parts with ⟨more, rfl, rest⟩ | ⟨more, rest, _⟩
        · rw [net_append, inner.1]
          rcases List.append_eq_singleton_iff.mp rest.symm with ⟨rfl, _⟩ | ⟨rfl, _⟩
          · decide
          · rw [net_ends ends]
            decide
        · have bound := inner.2 before more rest
          omega

/-- A pair does not reach across a place behind which no earlier block is closed. -/
theorem matched_append {front back : List Checkpoint} (keeps : Keeps back)
    (opening closing : Checkpoint) :
    Matched (front ++ back) opening closing ↔
      Matched front opening closing ∨ Matched back opening closing := by
  constructor
  · rintro ⟨before, inside, after, parts, begins, paired, ends⟩
    -- Between the two, what stands in front of the place and what stands behind it would not even
    -- out.
    have apart : ∀ near far, inside = near ++ far → back ≠ far ++ closing :: after := by
      rintro near far rfl rfl
      rcases paired_keeps paired with ⟨even, inner⟩
      have first := inner near far rfl
      have last := keeps (far ++ [closing]) after (by simp)
      rw [net_append] at even
      rw [net_append, net_ends ends] at last
      omega
    rcases List.append_eq_append_iff.mp parts with ⟨more, rfl, rest⟩ | ⟨more, rfl, rest⟩
    · exact .inr ⟨more, inside, after, rest, begins, paired, ends⟩
    · cases more with
      | nil => exact .inr ⟨[], inside, after, rest.symm, begins, paired, ends⟩
      | cons first more =>
          rcases List.cons.inj rest with ⟨rfl, tail⟩
          rcases List.append_eq_append_iff.mp tail with ⟨far, rfl, last⟩ | ⟨far, near, last⟩
          · cases far with
            | nil => exact absurd last.symm (apart inside [] (by simp))
            | cons second far =>
                rcases List.cons.inj last with ⟨rfl, rfl⟩
                exact .inl ⟨before, inside, far, rfl, begins, paired, ends⟩
          · exact absurd last (apart more far near)
  · rintro (⟨before, inside, after, rfl, matched⟩ | ⟨before, inside, after, rfl, matched⟩)
    · exact ⟨before, inside, after ++ back, by simp, matched⟩
    · exact ⟨front ++ before, inside, after, by simp, matched⟩

theorem not_matched_single (mark opening closing : Checkpoint) :
    ¬ Matched [mark] opening closing := by
  rintro ⟨before, inside, after, parts, _⟩
  have counted := congrArg List.length parts
  simp only [List.length_cons, List.length_append, List.length_nil] at counted
  omega

theorem hides_append {length : Checkpoint → Nat} {front back : List Checkpoint}
    (keeps : Keeps back) (index : Nat) :
    Hides length (front ++ back) index ↔
      Hides length front index ∨ Hides length back index := by
  simp only [Hides, matched_append keeps, or_and_right, exists_or]

/-- Checkpoints, the first one first, that open as many blocks as are open. -/
inductive Opens : List Checkpoint → (depth : Nat) → Prop
  | closed {marks : List Checkpoint} : Paired marks → Opens marks 0
  | block {before inside : List Checkpoint} {opening : Checkpoint} {depth : Nat} :
    Opens before depth →
      opening.boundary = .begins → Paired inside →
        Opens (before ++ opening :: inside) (depth + 1)

theorem opens_begin {marks : List Checkpoint} {depth : Nat} (opens : Opens marks depth)
    {mark : Checkpoint} (begins : mark.boundary = .begins) : Opens (marks ++ [mark]) (depth + 1) :=
  .block opens begins .nil

theorem opens_paired {marks inside : List Checkpoint} {depth : Nat} (opens : Opens marks depth)
    (paired : Paired inside) : Opens (marks ++ inside) depth := by
  cases opens with
  | closed before => exact .closed (.append before paired)
  | block before begins behind =>
      rw [List.append_assoc]
      exact .block before begins (.append behind paired)

theorem opens_end {marks : List Checkpoint} {depth : Nat} (opens : Opens marks (depth + 1))
    {mark : Checkpoint} (ends : mark.boundary = .ends) : Opens (marks ++ [mark]) depth := by
  cases opens with
  | block before begins behind =>
      rw [List.append_assoc]
      exact opens_paired before (.block begins behind ends)

/-! The blocks that are read off the checkpoints. -/

section
variable (length : Checkpoint → Nat)

def Covers (blocks : List Span) (index : Nat) : Prop :=
  ∃ block ∈ blocks, block.start ≤ index ∧ index < block.stop

def Rising (marks : List Checkpoint) : Prop :=
  marks.Pairwise fun earlier later => length earlier ≤ length later

/-- Inside a closed block, boundaries that pair up are passed over. -/
theorem closedBlocks_paired {inside : List Checkpoint} (paired : Paired inside) (closed stop : Nat)
    (older : List Checkpoint) :
    closedBlocks length (closed + 1) stop (inside.reverse ++ older) =
      closedBlocks length (closed + 1) stop older := by
  induction paired generalizing closed older with
  | nil => rfl
  | append _ _ first second => rw [List.reverse_append, List.append_assoc, second, first]
  | block begins _ ends inner =>
      simp only [List.cons_append, List.reverse_cons, List.reverse_append, List.reverse_nil,
        List.nil_append, List.append_assoc, closedBlocks, ends]
      rw [inner]
      simp only [closedBlocks, begins]

variable {length}

/-- An outermost pair is read as one block, and it hides what the pairs inside it hide. -/
theorem covers_paired {inside : List Checkpoint} (paired : Paired inside)
    (rising : Rising length inside) (older : List Checkpoint) (index : Nat) :
    Covers (closedBlocks length 0 0 (inside.reverse ++ older)) index ↔
      Hides length inside index ∨ Covers (closedBlocks length 0 0 older) index := by
  induction paired generalizing older with
  | nil =>
      have none : ¬ Hides length [] index := by
        rintro ⟨opening, closing, ⟨before, inside, after, parts, _⟩, _⟩
        cases before <;> cases parts
      simp [none]
  | append _ following first second =>
      rcases List.pairwise_append.mp rising with ⟨left, right, _⟩
      rw [List.reverse_append, List.append_assoc, second right, first left,
        hides_append (paired_keeps following).2, or_assoc, or_left_comm]
  | block begins within ends inner =>
      rename_i opening closing inside
      have blocks : closedBlocks length 0 0 ((opening :: inside ++ [closing]).reverse ++ older) =
          ⟨length opening, length closing⟩ :: closedBlocks length 0 0 older := by
        simp only [List.cons_append, List.reverse_cons, List.reverse_append, List.reverse_nil,
          List.nil_append, List.append_assoc, closedBlocks, ends]
        rw [closedBlocks_paired length within]
        simp only [closedBlocks, begins]
        rw [closedBlocks_idle]
      have outermost : Hides length (opening :: inside ++ [closing]) index ↔
          length opening ≤ index ∧ index < length closing := by
        constructor
        · rintro ⟨first, last, ⟨before, between, after, parts, _⟩, above, below⟩
          have least :
              ∀ mark ∈ opening :: inside ++ [closing], length opening ≤ length mark :=
            List.forall_mem_cons.mpr ⟨Nat.le_refl _, (List.pairwise_cons.mp rising).1⟩
          have greatest :
              ∀ mark ∈ opening :: inside ++ [closing], length mark ≤ length closing :=
            List.forall_mem_append.mpr ⟨fun mark member =>
              (List.pairwise_append.mp rising).2.2 mark member closing List.mem_cons_self, by simp⟩
          have opened := least first (by simp [parts])
          have closed := greatest last (by simp [parts])
          exact ⟨Nat.le_trans opened above, Nat.lt_of_lt_of_le below closed⟩
        · intro held
          exact ⟨opening, closing, ⟨[], inside, [], rfl, begins, within, ends⟩, held⟩
      simp only [blocks, outermost, Covers, List.mem_cons, or_and_right, exists_or, exists_eq_left]

/-- The blocks that are read hide what the pairs hide. -/
theorem covers_iff {marks : List Checkpoint} {depth : Nat} (opens : Opens marks depth)
    (rising : Rising length marks) (index : Nat) :
    Covers (closedBlocks length 0 0 marks.reverse) index ↔ Hides length marks index := by
  induction opens with
  | closed paired =>
      have read := covers_paired paired rising [] index
      rw [List.append_nil] at read
      simpa [Covers, closedBlocks] using read
  | block before begins paired ih =>
      rename_i earlier inside opening _
      rcases List.pairwise_append.mp rising with ⟨left, right, _⟩
      have skipped : closedBlocks length 0 0 (opening :: earlier.reverse) =
          closedBlocks length 0 0 earlier.reverse := by
        simp only [closedBlocks, begins]
      have keeps : Keeps (opening :: inside) := by
        refine keeps_begins begins fun front back parts => ?_
        have bound := (paired_keeps paired).2 front back parts
        omega
      have unmatched : ¬ Hides length [opening] index := by
        rintro ⟨first, last, matched, _⟩
        exact not_matched_single opening first last matched
      have alone : Hides length (opening :: inside) index ↔ Hides length inside index := by
        rw [← List.singleton_append, hides_append (paired_keeps paired).2]
        simp only [unmatched, false_or]
      rw [List.reverse_append, List.reverse_cons, List.append_assoc, List.singleton_append,
        covers_paired paired (List.pairwise_cons.mp right).2, skipped, ih left, hides_append keeps,
          alone, or_comm]

/-! The places that a search tries. -/

def Descends : (bound : Nat) → List Span → Prop
  | _, [] => True
  | bound, block :: older =>
      block.start ≤ block.stop ∧ block.stop ≤ bound ∧ Descends block.start older

theorem descends_below {bound : Nat} {blocks : List Span} (descends : Descends bound blocks) :
    ∀ block ∈ blocks, block.stop ≤ bound := by
  induction blocks generalizing bound with
  | nil => exact List.forall_mem_nil _
  | cons block older ih =>
      rcases descends with ⟨proper, within, rest⟩
      refine List.forall_mem_cons.mpr ⟨within, fun other member => ?_⟩
      exact Nat.le_trans (ih rest other member) (Nat.le_trans proper within)

theorem closedBlocks_descend {marks : List Checkpoint} {bound : Nat}
    (falling : marks.Pairwise fun later earlier => length earlier ≤ length later)
    (within : ∀ mark ∈ marks, length mark ≤ bound) (closed stop : Nat)
    (pending : closed ≠ 0 → stop ≤ bound ∧ ∀ mark ∈ marks, length mark ≤ stop) :
    Descends bound (closedBlocks length closed stop marks) := by
  induction marks generalizing closed stop bound with
  | nil => trivial
  | cons mark older ih =>
      rcases List.pairwise_cons.mp falling with ⟨first, rest⟩
      rcases List.forall_mem_cons.mp within with ⟨here, below⟩
      cases marked : mark.boundary with
      | ends =>
          cases closed with
          | zero =>
              simp only [closedBlocks, marked]
              exact ih rest below 1 _ fun _ => ⟨here, first⟩
          | succ closed =>
              rcases pending (Nat.succ_ne_zero _) with ⟨reach, bounded⟩
              simp only [closedBlocks, marked]
              exact ih rest below _ _ fun _ => ⟨reach, (List.forall_mem_cons.mp bounded).2⟩
      | begins =>
          rcases closed with _ | _ | closed
          · simp only [closedBlocks, marked]
            exact ih rest below 0 _ fun open_ => absurd rfl open_
          · rcases pending (Nat.succ_ne_zero _) with ⟨reach, bounded⟩
            simp only [closedBlocks, marked]
            exact ⟨bounded mark List.mem_cons_self, reach, ih rest first 0 _ fun open_ =>
              absurd rfl open_⟩
          · rcases pending (Nat.succ_ne_zero _) with ⟨reach, bounded⟩
            simp only [closedBlocks, marked]
            exact ih rest below _ _ fun _ => ⟨reach, (List.forall_mem_cons.mp bounded).2⟩

theorem blocks_descend {marks : List Checkpoint} {bound : Nat} (rising : Rising length marks)
    (within : ∀ mark ∈ marks, length mark ≤ bound) :
    Descends bound (closedBlocks length 0 0 marks.reverse) :=
  closedBlocks_descend (List.pairwise_reverse.mpr rising)
    (fun mark member => within mark (List.mem_reverse.mp member))
    0 0 fun pending => absurd rfl pending

end

theorem mem_downFrom {start stop index : Nat} :
    index ∈ downFrom start stop ↔ start ≤ index ∧ index < stop := by
  induction stop with
  | zero => simp [downFrom]
  | succ stop ih =>
      by_cases below : stop < start
      · simp only [downFrom, below, ↓reduceIte, List.not_mem_nil, false_iff]
        omega
      · simp only [downFrom, below, ↓reduceIte, List.mem_cons, ih]
        omega

theorem downFrom_descends (start stop : Nat) : (downFrom start stop).Pairwise (· > ·) := by
  induction stop with
  | zero => exact .nil
  | succ stop ih =>
      by_cases below : stop < start
      · simp [downFrom, below]
      · simp only [downFrom, below, ↓reduceIte, List.pairwise_cons]
        exact ⟨fun index member => (mem_downFrom.mp member).2, ih⟩

theorem mem_visible {bound start stop index : Nat} {blocks : List Span}
    (descends : Descends bound blocks) :
    index ∈ visible start stop blocks ↔
      (start ≤ index ∧ index < stop) ∧ ¬ Covers blocks index := by
  induction blocks generalizing bound stop with
  | nil => simp [visible, mem_downFrom, Covers]
  | cons block older ih =>
      rcases descends with ⟨proper, _, rest⟩
      have parts : Covers (block :: older) index ↔
          (block.start ≤ index ∧ index < block.stop) ∨ Covers older index := by
        simp only [Covers, List.mem_cons, or_and_right, exists_or, exists_eq_left]
      have lower : Covers older index → index < block.start := by
        rintro ⟨other, member, _, below⟩
        exact Nat.lt_of_lt_of_le below (descends_below rest other member)
      rw [visible, List.mem_append, mem_downFrom, ih rest, parts]
      by_cases covered : Covers older index
      · have below := lower covered
        simp only [covered, or_true, not_true_eq_false, and_false, or_false, iff_false]
        omega
      · simp only [covered, or_false, not_false_eq_true, and_true]
        omega

theorem visible_descends {bound : Nat} {blocks : List Span} (descends : Descends bound blocks)
    (start stop : Nat) :
    (visible start stop blocks).Pairwise (· > ·) := by
  induction blocks generalizing bound stop with
  | nil => exact downFrom_descends start stop
  | cons block older ih =>
      rcases descends with ⟨proper, _, rest⟩
      refine List.pairwise_append.mpr
        ⟨downFrom_descends .., ih rest _, fun upper high lower low => ?_⟩
      have above := (mem_downFrom.mp high).1
      have below := ((mem_visible rest).mp low).1.2
      show lower < upper
      omega

theorem found_greatest {places : List Nat} (descends : places.Pairwise (· > ·))
    {accepts : Nat → Bool} {index : Nat}
    (found : places.find? accepts = some index) :
    IsGreatest {place | place ∈ places ∧ accepts place} index := by
  rcases List.find?_eq_some_iff_append.mp found with ⟨accepted, above, below, rfl, refused⟩
  rcases List.pairwise_append.mp descends with ⟨_, later, _⟩
  constructor
  · exact ⟨List.mem_append_right _ List.mem_cons_self, accepted⟩
  · rintro place ⟨member, hit⟩
    rcases List.mem_append.mp member with before | behind
    · exact absurd hit (by simpa using refused place before)
    · rcases List.mem_cons.mp behind with rfl | behind
      · exact Nat.le_refl _
      · exact Nat.le_of_lt ((List.pairwise_cons.mp later).1 place behind)

theorem find_greatest {places : List Nat} (descends : places.Pairwise (· > ·))
    (accepts : Nat → Bool) (index : Nat) :
    places.find? accepts = some index ↔
      IsGreatest {place | place ∈ places ∧ accepts place} index := by
  constructor
  · exact found_greatest descends
  · intro greatest
    cases found : places.find? accepts with
    | none => exact absurd greatest.1.2 (List.find?_eq_none.mp found index greatest.1.1)
    | some other => rw [(found_greatest descends found).unique greatest]

/-! Searches. -/

section
variable {α : Type} {history : Array α} {nameOf : α → String} {length : Checkpoint → Nat}
    {marks : List Checkpoint}
  {depth : Nat}

/-- The places that a search tries are those that are seen. -/
theorem tried_iff (opens : Opens marks depth) (rising : Rising length marks)
    (within : ∀ mark ∈ marks, length mark ≤ history.size) (name : String) (stop place : Nat) :
    place ∈ visible 0 (min stop history.size) (closedBlocks length 0 0 marks.reverse) ∧
        history[place]?.any (nameOf · == name) ↔
      Seen history nameOf length marks name stop place := by
  rw [mem_visible (blocks_descend rising within), covers_iff opens rising]
  constructor
  · rintro ⟨⟨⟨_, below⟩, outside⟩, accepted⟩
    cases recorded : history[place]? with
    | none => simp [recorded] at accepted
    | some entry => exact ⟨below, by simpa [recorded] using accepted, outside⟩
  · rintro ⟨below, named, outside⟩
    rcases Option.map_eq_some_iff.mp named with ⟨entry, recorded, same⟩
    exact ⟨⟨⟨Nat.zero_le _, below⟩, outside⟩, by simp [recorded, same]⟩

theorem lookup_greatest (opens : Opens marks depth) (rising : Rising length marks)
    (within : ∀ mark ∈ marks, length mark ≤ history.size) (name : String) (stop index : Nat) :
    lookup history nameOf length marks.reverse name 0 stop = some index ↔
      IsGreatest {place | Seen history nameOf length marks name stop place} index := by
  rw [lookup, scan_eq, find_greatest (visible_descends (blocks_descend rising within) ..)]
  simp only [tried_iff opens rising within]

theorem lookup_none (opens : Opens marks depth) (rising : Rising length marks)
    (within : ∀ mark ∈ marks, length mark ≤ history.size) (name : String) (stop : Nat) :
    lookup history nameOf length marks.reverse name 0 stop = none ↔
      ∀ place, ¬ Seen history nameOf length marks name stop place := by
  rw [lookup, scan_eq, List.find?_eq_none]
  simp only [← tried_iff opens rising within, not_and]

/-- What was recorded after a search does not change it. -/
theorem lookup_later (opens : Opens marks depth) (rising : Rising length marks)
    (within : ∀ mark ∈ marks, length mark ≤ history.size) (nameOf : α → String)
    (more : Array α) (name : String) :
    lookup (history ++ more) nameOf length marks.reverse name 0 history.size =
      lookup history nameOf length marks.reverse name 0 history.size := by
  have wider : ∀ mark ∈ marks, length mark ≤ (history ++ more).size := fun mark member =>
    Nat.le_trans (within mark member) (by simp)
  have alike : ∀ place, Seen (history ++ more) nameOf length marks name history.size place ↔
      Seen history nameOf length marks name history.size place := by
    intro place
    have kept : place < history.size → (history ++ more)[place]? = history[place]? :=
      Array.getElem?_append_left
    constructor
    · rintro ⟨below, named, outside⟩
      rw [kept (by simpa using below)] at named
      exact ⟨by simpa using below, named, outside⟩
    · rintro ⟨below, named, outside⟩
      rw [← kept (by simpa using below)] at named
      exact ⟨by simpa using below, named, outside⟩
  ext index
  rw [lookup_greatest opens rising wider, lookup_greatest opens rising within]
  simp only [alike]

end

structure Orderly (ledger : Ledger) : Prop where
  opens : Opens ledger.checkpoints.reverse ledger.depth
  earlier : ∀ before after, ledger.checkpoints.reverse = before ++ after →
    ∃ depth, Opens before depth
  vars : Rising Checkpoint.vars ledger.checkpoints.reverse ∧
    ∀ mark ∈ ledger.checkpoints, mark.vars ≤ ledger.vars.size
  functions : Rising Checkpoint.functions ledger.checkpoints.reverse ∧
    ∀ mark ∈ ledger.checkpoints, mark.functions ≤ ledger.functions.size

theorem orderly_empty (limit : Nat) : (empty limit).Orderly where
  opens := .closed .nil
  earlier := by
    intro before after parts
    rw [(List.append_eq_nil_iff.mp parts.symm).1]
    exact ⟨0, .closed .nil⟩
  vars := ⟨.nil, List.forall_mem_nil _⟩
  functions := ⟨.nil, List.forall_mem_nil _⟩

theorem rising_record (length : Checkpoint → Nat) {marks : List Checkpoint} (mark : Checkpoint)
    (ordered : Rising length marks.reverse ∧ ∀ earlier ∈ marks, length earlier ≤ length mark) :
    Rising length (mark :: marks).reverse ∧
      ∀ earlier ∈ mark :: marks, length earlier ≤ length mark := by
  constructor
  · rw [List.reverse_cons]
    refine List.pairwise_append.mpr
      ⟨ordered.1, List.pairwise_singleton .., fun earlier member last single => ?_⟩
    rw [List.mem_singleton.mp single]
    exact ordered.2 earlier (List.mem_reverse.mp member)
  · exact List.forall_mem_cons.mpr ⟨Nat.le_refl _, ordered.2⟩

theorem orderly_record {ledger : Ledger} (orderly : ledger.Orderly) (boundary : Boundary)
    {depth : Nat}
    (opens : Opens (ledger.checkpoints.reverse ++ [ledger.checkpoint boundary]) depth) :
    Orderly
      { ledger with checkpoints := ledger.checkpoint boundary :: ledger.checkpoints, depth } where
  opens := by
    rw [List.reverse_cons]
    exact opens
  earlier := by
    intro before after parts
    rw [List.reverse_cons] at parts
    rcases List.append_eq_append_iff.mp parts with ⟨more, rfl, rest⟩ | ⟨more, whole, _⟩
    · rcases List.append_eq_singleton_iff.mp rest.symm with ⟨rfl, _⟩ | ⟨rfl, _⟩
      · rw [List.append_nil]
        exact ⟨_, orderly.opens⟩
      · exact ⟨depth, opens⟩
    · exact orderly.earlier before more whole
  vars := rising_record Checkpoint.vars (ledger.checkpoint boundary) orderly.vars
  functions := rising_record Checkpoint.functions (ledger.checkpoint boundary) orderly.functions

theorem step_orderly {ledger : Ledger} (orderly : ledger.Orderly) (call : Recording) :
    (ledger.step call).2.Orderly := by
  rcases ledger with ⟨vars, functions, checkpoints, depth, limit⟩
  match call with
  | .declareVariable entry =>
      rcases orderly with ⟨opens, earlier, ⟨rising, within⟩, functions⟩
      refine ⟨opens, earlier, ⟨rising, fun mark member => ?_⟩, functions⟩
      exact Nat.le_trans (within mark member) (by simp [step, addVariable])
  | .declareFunction entry =>
      rcases orderly with ⟨opens, earlier, vars, rising, within⟩
      refine ⟨opens, earlier, vars, rising, fun mark member => ?_⟩
      exact Nat.le_trans (within mark member) (by simp [step, addFunction])
  | .cross .begins =>
      by_cases full : limit ≤ depth
      · simpa only [step, cross, openBlock, full, ↓reduceIte] using orderly
      · simp only [step, cross, openBlock, full, ↓reduceIte]
        exact orderly_record orderly .begins (opens_begin orderly.opens rfl)
  | .cross .ends =>
      cases depth with
      | zero => exact orderly
      | succ depth => exact orderly_record orderly .ends (opens_end orderly.opens rfl)

theorem run_orderly {ledger : Ledger} (orderly : ledger.Orderly) (calls : List Recording) :
    (ledger.run calls).2.Orderly := by
  induction calls generalizing ledger with
  | nil => exact orderly
  | cons call rest ih => exact ih (step_orderly orderly call)

/-! What is recorded later. -/

/-- The ledger has what the earlier one had, and what came to it came later. -/
structure Follows (later ledger : Ledger) : Prop where
  vars : ∃ more, later.vars = ledger.vars ++ more
  functions : ∃ more, later.functions = ledger.functions ++ more
  checkpoints : ∃ newer, later.checkpoints = newer ++ ledger.checkpoints

theorem step_follows (ledger : Ledger) (call : Recording) :
    (ledger.step call).2.Follows ledger := by
  have same : ledger.Follows ledger := ⟨⟨#[], by simp⟩, ⟨#[], by simp⟩, [], rfl⟩
  rcases ledger with ⟨vars, functions, checkpoints, depth, limit⟩
  match call with
  | .declareVariable entry =>
      exact ⟨⟨#[entry], Array.push_eq_append⟩, same.functions, same.checkpoints⟩
  | .declareFunction entry =>
      exact ⟨same.vars, ⟨#[entry], Array.push_eq_append⟩, same.checkpoints⟩
  | .cross .begins =>
      by_cases full : limit ≤ depth
      · simpa only [step, cross, openBlock, full, ↓reduceIte] using same
      · simp only [step, cross, openBlock, full, ↓reduceIte]
        exact ⟨same.vars, same.functions, [_], rfl⟩
  | .cross .ends =>
      cases depth with
      | zero => exact same
      | succ depth => exact ⟨same.vars, same.functions, [_], rfl⟩

theorem run_follows (ledger : Ledger) (calls : List Recording) :
    (ledger.run calls).2.Follows ledger := by
  induction calls generalizing ledger with
  | nil => exact ⟨⟨#[], by simp [run]⟩, ⟨#[], by simp [run]⟩, [], rfl⟩
  | cons call rest ih =>
      rcases ih (ledger.step call).2
        with ⟨⟨vars, hasVars⟩, ⟨functions, hasFunctions⟩, newer, hasCheckpoints⟩
      rcases step_follows ledger call with ⟨⟨more, first⟩, ⟨others, second⟩, newest, third⟩
      refine ⟨⟨more ++ vars, ?_⟩, ⟨others ++ functions, ?_⟩, newer ++ newest, ?_⟩
      · rw [run, hasVars, first, Array.append_assoc]
      · rw [run, hasFunctions, second, Array.append_assoc]
      · rw [run, hasCheckpoints, third, List.append_assoc]

/-! Searches from a border. -/

/-- The checkpoints that a border knows of, the first one first. -/
def known (ledger : Ledger) (border : Border) : List Checkpoint :=
  ledger.checkpoints.reverse.take border.checkpoints

theorem recorded_known (ledger : Ledger) (border : Border) :
    ledger.recorded border = (ledger.known border).reverse := by
  simp [recorded, known, List.take_reverse]

/-- The place holds the latest entry that is seen, and without a place none is seen. -/
def LatestSeen {α : Type} (history : Array α) (nameOf : α → String) (length : Checkpoint → Nat)
    (marks : List Checkpoint) (name : String) (stop : Nat) : Option Nat → Prop
  | some index => IsGreatest {place | Seen history nameOf length marks name stop place} index
  | none => ∀ place, ¬ Seen history nameOf length marks name stop place

section
variable {ledger : Ledger}

theorem known_opens (orderly : ledger.Orderly) (border : Border) :
    ∃ depth, Opens (ledger.known border) depth :=
  orderly.earlier _ _ (List.take_append_drop border.checkpoints _).symm

theorem known_ordered {length : Checkpoint → Nat} {bound : Nat}
    (ordered : Rising length ledger.checkpoints.reverse ∧
      ∀ mark ∈ ledger.checkpoints, length mark ≤ bound)
    (border : Border) :
    Rising length (ledger.known border) ∧
      ∀ mark ∈ ledger.known border, length mark ≤ bound := by
  refine ⟨ordered.1.sublist (List.take_sublist ..), fun mark member => ordered.2 mark ?_⟩
  exact List.mem_reverse.mp (List.mem_of_mem_take member)

/-- A lookup from a border answers with the latest entry that is seen from there. -/
theorem lookup_known {α : Type} {history : Array α} {length : Checkpoint → Nat}
    (orderly : ledger.Orderly) (ordered : Rising length ledger.checkpoints.reverse ∧
      ∀ mark ∈ ledger.checkpoints, length mark ≤ history.size)
    (nameOf : α → String) (name : String) (border : Border) (stop : Nat) (answer : Option Nat) :
    lookup history nameOf length (ledger.recorded border) name 0 stop = answer ↔
      LatestSeen history nameOf length (ledger.known border) name stop answer := by
  rcases known_opens orderly border with ⟨_, opens⟩
  rcases known_ordered ordered border with ⟨rising, within⟩
  rw [recorded_known]
  cases answer with
  | none => exact lookup_none opens rising within name stop
  | some index => exact lookup_greatest opens rising within name stop index

theorem findVariableFrom_latest (orderly : ledger.Orderly) (name : String) (border : Border)
    (answer : Option VarId) :
    ledger.findVariableFrom name border = answer ↔
      LatestSeen ledger.vars VariableEntry.name Checkpoint.vars (ledger.known border) name
        border.vars (answer.map VarId.index) := by
  rw [← lookup_known orderly orderly.vars, findVariableFrom]
  cases answer with
  | none => simp
  | some id => cases id; simp

theorem findFunctionFrom_latest (orderly : ledger.Orderly) (name : String) (border : Border)
    (answer : Option FunId) :
    ledger.findFunctionFrom name border = answer ↔
      LatestSeen ledger.functions FunctionEntry.name Checkpoint.functions (ledger.known border) name
        border.functions (answer.map FunId.index) := by
  rw [← lookup_known orderly orderly.functions, findFunctionFrom]
  cases answer with
  | none => simp
  | some id => cases id; simp

theorem recorded_follows {later : Ledger} (follows : later.Follows ledger) :
    later.recorded ledger.border = ledger.checkpoints := by
  rcases follows.checkpoints with ⟨newer, newest⟩
  simp [recorded, border, newest]

theorem findVariableFrom_later {later : Ledger} (orderly : ledger.Orderly)
    (follows : later.Follows ledger) (name : String) :
    later.findVariableFrom name ledger.border = ledger.findVariable name := by
  rcases follows.vars with ⟨more, hasMore⟩
  rcases orderly.vars with ⟨rising, within⟩
  have same :=
    lookup_later orderly.opens rising (fun mark member => within mark (List.mem_reverse.mp member))
    VariableEntry.name more name
  rw [List.reverse_reverse] at same
  rw [findVariableFrom, recorded_follows follows, hasMore, findVariable, border, same]

theorem findFunctionFrom_later {later : Ledger} (orderly : ledger.Orderly)
    (follows : later.Follows ledger) (name : String) :
    later.findFunctionFrom name ledger.border = ledger.findFunction name := by
  rcases follows.functions with ⟨more, hasMore⟩
  rcases orderly.functions with ⟨rising, within⟩
  have same :=
    lookup_later orderly.opens rising (fun mark member => within mark (List.mem_reverse.mp member))
    FunctionEntry.name more name
  rw [List.reverse_reverse] at same
  rw [findFunctionFrom, recorded_follows follows, hasMore, findFunction, border, same]

end

/-- Whatever was recorded, and from whatever border: a search finds the latest entry of the name,
below the border and below the end of the history, that is in no block closed within the checkpoints
the border knows of. From the border of a moment it finds for good what a plain search found at that
moment. -/
theorem border_search_exact (limit : Nat) (calls : List Recording) (name : String)
    (border : Border) :
    let ledger := ((empty limit).run calls).2
    (∀ answer, ledger.findVariableFrom name border = answer ↔
      LatestSeen ledger.vars VariableEntry.name Checkpoint.vars (ledger.known border) name
        border.vars (answer.map VarId.index)) ∧
    (∀ answer, ledger.findFunctionFrom name border = answer ↔
      LatestSeen ledger.functions FunctionEntry.name Checkpoint.functions (ledger.known border) name
        border.functions (answer.map FunId.index)) ∧
    ∀ more, let later := (ledger.run more).2
      later.findVariableFrom name ledger.border = ledger.findVariable name ∧
        later.findFunctionFrom name ledger.border = ledger.findFunction name := by
  intro ledger
  have orderly : ledger.Orderly := run_orderly (orderly_empty limit) calls
  refine ⟨findVariableFrom_latest orderly name border,
    findFunctionFrom_latest orderly name border, fun more => ?_⟩
  have follows := run_follows ledger more
  exact ⟨findVariableFrom_later orderly follows name, findFunctionFrom_later orderly follows name⟩

end StackCompiler.Ledger
