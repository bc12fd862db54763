/-!
What a pass leaves behind on a part of the tree.

A pass that changes the tree and may stop early still owes its caller the tree: the node as it was
left, the state that was reached, and the reason if it stopped. Steps follow each other only while
nothing has stopped, and on a list the members behind a stop are left as they were.
-/
namespace StackCompiler

structure Visit (σ ε α : Type) where
  node : α
  state : σ
  stopped : Option ε

namespace Visit

variable {σ ε δ α β : Type}

def done (node : α) (state : σ) : Visit σ ε α := ⟨node, state, none⟩

def stop (node : α) (state : σ) (reason : ε) : Visit σ ε α := ⟨node, state, some reason⟩

def map (f : α → β) (visit : Visit σ ε α) : Visit σ ε β :=
  ⟨f visit.node, visit.state, visit.stopped⟩

def mapStopped (f : ε → δ) (visit : Visit σ ε α) : Visit σ δ α :=
  ⟨visit.node, visit.state, visit.stopped.map f⟩

def andThen (visit : Visit σ ε α) (next : α → σ → Visit σ ε α) : Visit σ ε α :=
  match visit with
  | ⟨node, state, none⟩ => next node state
  | ⟨node, state, some reason⟩ => ⟨node, state, some reason⟩

-- The visited members are gathered in reverse, so that a long list needs no deep stack.
def eachOnto (f : α → σ → Visit σ ε α) (visited : List α) :
    List α → σ → Visit σ ε (List α)
  | [], state => done visited.reverse state
  | member :: rest, state =>
      match f member state with
      | ⟨node, state, none⟩ => eachOnto f (node :: visited) rest state
      | ⟨node, state, some reason⟩ => stop (visited.reverseAux (node :: rest)) state reason

def each (f : α → σ → Visit σ ε α) (members : List α) (state : σ) :
    Visit σ ε (List α) :=
  eachOnto f [] members state

theorem eachOnto_eq (f : α → σ → Visit σ ε α) (visited members : List α) (state : σ) :
    eachOnto f visited members state = (each f members state).map (visited.reverse ++ ·) := by
  induction members generalizing visited state with
  | nil => simp [each, eachOnto, done, map]
  | cons member rest ih =>
      unfold each eachOnto
      split
      · rw [ih, ih [_]]
        simp [map]
      · simp [stop, map]

@[simp] theorem each_nil (f : α → σ → Visit σ ε α) (state : σ) :
    each f [] state = done [] state := rfl

theorem each_cons (f : α → σ → Visit σ ε α) (member : α) (rest : List α) (state : σ) :
    each f (member :: rest) state =
      match f member state with
      | ⟨node, state, none⟩ => (each f rest state).map (node :: ·)
      | ⟨node, state, some reason⟩ => stop (node :: rest) state reason := by
  rw [each, eachOnto]
  split
  · rw [eachOnto_eq]
    rfl
  · rfl

end Visit

end StackCompiler
