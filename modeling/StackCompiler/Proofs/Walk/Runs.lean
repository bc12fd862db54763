import StackCompiler.Walk.Visit

/-!
Visits that do not stop.
-/
namespace StackCompiler.Visit

variable {σ ε α : Type}

theorem andThen_ran (visit : Visit σ ε α) {next : α → σ → Visit σ ε α}
    (ran : (visit.andThen next).stopped = none) :
    visit.stopped = none ∧ visit.andThen next = next visit.node visit.state := by
  obtain ⟨node, state, stopped⟩ := visit
  cases stopped with
  | none => exact ⟨rfl, rfl⟩
  | some reason => cases ran

theorem each_ran {f : α → σ → Visit σ ε α} {member : α} {rest : List α} {state : σ}
    (ran : (each f (member :: rest) state).stopped = none) :
    (f member state).stopped = none ∧ (each f rest (f member state).state).stopped = none ∧
      each f (member :: rest) state =
        (each f rest (f member state).state).map ((f member state).node :: ·) := by
  rw [each_cons] at ran ⊢
  split at ran
  · rename_i node next first
    rw [first]
    exact ⟨rfl, ran, rfl⟩
  · cases ran

/-- What the second of two steps keeps of its node, the two steps keep of the first one's, even if
that stopped. -/
theorem andThen_keeps {β : Type} {feature : α → β} {next : α → σ → Visit σ ε α}
    (one : ∀ node state, feature (next node state).node = feature node) (visit : Visit σ ε α) :
    feature (visit.andThen next).node = feature visit.node := by
  rcases visit with ⟨node, state, _ | reason⟩
  · exact one node state
  · rfl

theorem each_mapStopped {δ : Type} {reason : ε → δ} {f : α → σ → Visit σ ε α}
    {g : α → σ → Visit σ δ α} {members : List α}
    (one : ∀ member ∈ members, ∀ state, g member state = (f member state).mapStopped reason)
    (state : σ) : each g members state = (each f members state).mapStopped reason := by
  induction members generalizing state with
  | nil => rfl
  | cons member rest ih =>
      rcases List.forall_mem_cons.mp one with ⟨first, others⟩
      rw [each_cons, each_cons, first]
      rcases f member state with ⟨node, next, _ | stopped⟩
      · exact congrArg (map (node :: ·)) (ih others next)
      · rfl

/-- What each step keeps of its member, the visit of a list keeps of every member, even if it
stops. -/
theorem each_keeps {β : Type} {f : α → σ → Visit σ ε α} {feature : α → β}
    (one : ∀ member state, feature (f member state).node = feature member) (members : List α)
    (state : σ) :
    (each f members state).node.map feature = members.map feature := by
  induction members generalizing state with
  | nil => rfl
  | cons member rest ih =>
      have first := one member state
      rw [each_cons]
      split
      · rename_i node next visit
        rw [visit] at first
        simp only [map, List.map_cons, first, ih]
      · rename_i node next reason visit
        rw [visit] at first
        simp only [stop, List.map_cons, first]

/-- If visiting a member again comes to the same, so does visiting a list again, even if the visit
stopped. -/
theorem each_again {f : α → σ → Visit σ ε α}
    (one : ∀ member state, f (f member state).node state = f member state)
    (members : List α) (state : σ) :
    each f (each f members state).node state = each f members state := by
  induction members generalizing state with
  | nil => rfl
  | cons member rest ih =>
      have first := one member state
      rw [each_cons]
      split
      · rename_i node next visit
        rw [visit] at first
        rw [map, each_cons, first]
        simp only [ih, map]
      · rename_i node next reason visit
        rw [visit] at first
        rw [stop, each_cons, first]
        rfl

theorem each_left {f : α → σ → Visit σ ε α} {members : List α} {state : σ}
    (ran : (each f members state).stopped = none) {node : α}
    (member : node ∈ (each f members state).node) :
    ∃ old ∈ members, ∃ before, (f old before).stopped = none ∧
      (f old before).node = node := by
  induction members generalizing state with
  | nil => cases member
  | cons old rest ih =>
      rcases each_ran ran with ⟨first, others, visit⟩
      rw [visit] at member
      rcases List.mem_cons.mp member with rfl | later
      · exact ⟨old, List.mem_cons_self, state, first, rfl⟩
      · rcases ih others later with ⟨other, inside, found⟩
        exact ⟨other, List.mem_cons_of_mem _ inside, found⟩

end StackCompiler.Visit
