import StackCompiler.Fault

/-!
Labels of conditional jumps.

Entering a conditional issues the next id and leaving it resolves the innermost pending one. Ids are
never reused, so nested conditionals pair up without a flow graph. An id has to fit an operand.
-/
namespace StackCompiler

structure Labels where
  issued : Nat
  pending : Array UInt16
  limit : Nat
deriving Repr

namespace Labels

def empty (limit : Nat) : Labels := ⟨0, #[], limit⟩

def depth (labels : Labels) : Nat := labels.pending.size

def issue : EStateM Fault Labels UInt16 := fun ⟨issued, pending, limit⟩ =>
  if limit ≤ pending.size then .error (.labelOverflow limit) ⟨issued, pending, limit⟩
  else if UInt16.size ≤ issued
    then .error (.indexOverflow "label" issued) ⟨issued, pending, limit⟩
  else
    let id := UInt16.ofNat issued
    .ok id ⟨issued + 1, pending.push id, limit⟩

def resolve : EStateM Fault Labels UInt16 := fun ⟨issued, pending, limit⟩ =>
  match pending.back? with
  | none => .error .labelUnderflow ⟨issued, pending, limit⟩
  | some id => .ok id ⟨issued, pending.pop, limit⟩

theorem issue_outcome (labels : Labels) :
    labels.issue =
      if labels.limit ≤ labels.depth then .error (.labelOverflow labels.limit) labels
      else if UInt16.size ≤ labels.issued
      then .error (.indexOverflow "label" labels.issued) labels
      else .ok (.ofNat labels.issued)
        ⟨labels.issued + 1, labels.pending.push (.ofNat labels.issued), labels.limit⟩ := rfl

theorem resolve_outcome (labels : Labels) :
    labels.resolve =
      match labels.pending.back? with
      | none => .error .labelUnderflow labels
      | some id => .ok id ⟨labels.issued, labels.pending.pop, labels.limit⟩ := rfl

end Labels

end StackCompiler
