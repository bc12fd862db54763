import Mathlib.Data.List.Nodup
import StackCompiler.Proofs.Lowering.Chunks
import StackCompiler.Proofs.Lowering.Safety
import StackCompiler.Proofs.Typing.Variables

/-!
The tables of an executable, and what its code refers to in them.

Ids are handed out by analysis in visiting order. The generator records variables in another order,
all statements of the top level first and parameters backwards, and sorts the table by slot in the
end. Because the slots are the places in visiting order, sorting restores that order. The kind in an
instruction comes from the type that was written on a use; it is the kind of the entry because the
use obeys its typing rule.
-/
namespace StackCompiler

/-! The table of variables. -/

def Item.statics : Item → List StaticVariable
  | function f => f.stored.flatMap Param.statics ++ f.stmts.flatMap Stmt.statics
  | stmt s => s.statics

/-- The table in which each variable has its place for a slot. -/
def slotted (vars : List VariableEntry) : List StaticVariable :=
  vars.mapIdx fun place v => ⟨v.name, v.ty, .ofNat place⟩

section
variable {table : List StaticVariable} {vars : List VariableEntry}

theorem table_slotted {count : Nat}
    (slots : table.map StaticVariable.slot = (List.range count).map UInt16.ofNat)
    (entries : table.map (fun v => (v.name, v.ty)) = vars.map fun v => (v.name, v.ty)) :
    table = slotted vars := by
  apply List.ext_getElem?
  intro place
  have slot := congrArg (·[place]?) slots
  have entry := congrArg (·[place]?) entries
  simp only [List.getElem?_map] at slot entry
  rw [slotted, List.getElem?_mapIdx]
  cases here : table[place]? with
  | none =>
      rw [here] at entry
      rw [Option.map_eq_none_iff.mp entry.symm]
      rfl
  | some v =>
      rw [here] at entry slot
      rcases Option.map_eq_some_iff.mp entry.symm with ⟨own, found, same⟩
      rcases Option.map_eq_some_iff.mp slot.symm with ⟨index, numbered, known⟩
      rcases v with ⟨name, ty, slot⟩
      cases same
      cases known
      rw [found, (List.getElem?_eq_some_iff.mp numbered).2.symm.trans (List.getElem_range _)]
      rfl

theorem slotted_ascends (few : vars.length ≤ UInt16.size) :
    (slotted vars).Pairwise fun a b => a.slot < b.slot := by
  apply List.pairwise_iff_getElem.mpr
  intro i j first second before
  rw [slotted, List.length_mapIdx] at first second
  simp only [slotted, List.getElem_mapIdx]
  rw [UInt16.lt_iff_toNat_lt, UInt16.toNat_ofNat_of_lt' (by omega),
    UInt16.toNat_ofNat_of_lt' (by omega)]
  exact before

theorem slotted_distinct (few : vars.length ≤ UInt16.size) :
    ((slotted vars).map StaticVariable.slot).Nodup :=
  List.pairwise_map.mpr ((slotted_ascends few).imp UInt16.ne_of_lt)

/-- Sorting by slot restores the order of the slots. -/
theorem sorted_slotted (few : vars.length ≤ UInt16.size) (perm : table.Perm (slotted vars)) :
    (table.mergeSort fun a b => a.slot ≤ b.slot) = slotted vars := by
  have sorted : (table.mergeSort fun a b => a.slot ≤ b.slot).Pairwise fun a b =>
    decide (a.slot ≤ b.slot) = true := by
    apply List.pairwise_mergeSort
    · simpa using fun (a b c : StaticVariable) => UInt16.le_trans
    · simpa using fun (a b : StaticVariable) => UInt16.le_total a.slot b.slot
  have same := (List.mergeSort_perm table fun a b => a.slot ≤ b.slot).trans perm
  apply List.Perm.eq_of_pairwise _ sorted _ same
  · intro a b first second up down
    have slots : a.slot = b.slot :=
      UInt16.le_antisymm (of_decide_eq_true up) (of_decide_eq_true down)
    exact List.inj_on_of_nodup_map (slotted_distinct few) (same.subset first) second slots
  · exact (slotted_ascends few).imp fun less => decide_eq_true (UInt16.le_of_lt less)

end

namespace Stmt

theorem statics_slots (s : Stmt) :
    s.statics.map StaticVariable.slot = s.declared.map fun id => UInt16.ofNat id.index := by
  cases s with
  | declare line decl => rcases decl with ⟨name, ty, init, _ | id⟩ <;> rfl
  | _ => rfl

theorem statics_entries {ledger : Ledger} {s : Stmt} (sound : s.Sound ledger) :
    s.statics.map (fun v => (v.name, v.ty)) = s.vars.map fun v => (v.name, v.ty) := by
  cases s with
  | declare line decl =>
      rcases decl with ⟨name, ty, init, _ | id⟩
      · rcases sound with ⟨⟨_, unset, _⟩, _⟩
        cases unset
      · rfl
  | _ => rfl

end Stmt

namespace Program
open Lowering
variable {p : Program} {ledger : Ledger}

/-- The generator records the variables that analysis meets, in another order. -/
theorem statics_perm (p : Program) : p.statics.Perm (p.items.flatMap Item.statics) := by
  rcases p with ⟨items⟩
  induction items with
  | nil => exact .nil
  | cons item rest ih =>
      cases item with
      | stmt s =>
          have split : statics ⟨.stmt s :: rest⟩ = s.statics ++ statics ⟨rest⟩ :=
            List.append_assoc ..
          rw [split, List.flatMap_cons]
          exact ih.append_left s.statics
      | function f =>
          have split :
            statics ⟨.function f :: rest⟩ = (statements ⟨rest⟩).flatMap Stmt.statics ++
            (f.statics ++ (functions ⟨rest⟩).flatMap Function.statics) := rfl
          have own : f.statics.Perm (Item.function f).statics :=
            ((List.reverse_perm f.stored).flatMap_right Param.statics).append_right _
          rw [split, List.flatMap_cons]
          exact (List.perm_append_comm_assoc ..).trans (own.append ih)

theorem statics_slots (p : Program) : (p.items.flatMap Item.statics).map StaticVariable.slot =
    (p.items.flatMap Item.declared).map fun id => UInt16.ofNat id.index := by
  have param : ∀ param : Param, param.statics.map StaticVariable.slot =
      param.id.toList.map fun id => UInt16.ofNat id.index := by
    intro param
    rw [Param.statics]
    cases param.id <;> rfl
  have item : ∀ item : Item, item.statics.map StaticVariable.slot =
      item.declared.map fun id => UInt16.ofNat id.index := by
    intro item
    cases item with
    | stmt s => exact s.statics_slots
    | function f =>
        simp only [Item.statics, Item.declared, Function.declared, List.map_append,
          List.map_flatMap, param, Stmt.statics_slots]
  simp only [List.map_flatMap, item]

theorem statics_entries (sound : p.Sound ledger) :
    (p.items.flatMap Item.statics).map (fun v => (v.name, v.ty)) = p.vars.map fun v =>
    (v.name, v.ty) := by
  have item : ∀ item ∈ p.items, item.statics.map (fun v => (v.name, v.ty)) =
      item.vars.map fun v => (v.name, v.ty) := by
    intro item member
    cases item with
    | stmt s => exact Stmt.statics_entries (sound.items _ member)
    | function f =>
        rcases sound_function sound (mem_functions.mpr member) with ⟨params, stmts⟩
        have param : ∀ param ∈ f.stored, param.statics.map (fun v => (v.name, v.ty)) =
          [(param.name, param.ty)] := by
          intro param stored
          rcases params param stored with ⟨id, known, _⟩
          rw [Param.statics, known]
          rfl
        simp only [Item.statics, Item.vars, Function.vars, List.map_append, List.map_flatMap,
          List.map_map]
        rw [List.flatMap_def, List.map_congr_left param, ← List.flatMap_def,
          ← List.map_eq_flatMap, List.flatMap_def, List.flatMap_def,
            List.map_congr_left fun s inside => Stmt.statics_entries (stmts s inside)]
        rfl
  simp only [vars, List.map_flatMap]
  rw [List.flatMap_def, List.flatMap_def, List.map_congr_left item]

/-- In visiting order, each variable has its place for a slot. -/
theorem statics_slotted (sound : p.Sound ledger) :
    p.items.flatMap Item.statics = slotted p.vars := by
  apply table_slotted _ (statics_entries sound)
  · exact ledger.vars.size
  · have numbered := congrArg (List.map UInt16.ofNat) sound.ids
    rw [List.map_map] at numbered
    exact p.statics_slots.trans numbered

theorem vars_count (sound : p.Sound ledger) : p.vars.length = ledger.vars.size := by
  have ids := congrArg List.length sound.ids
  have slots := congrArg List.length p.statics_slots
  have entries := congrArg List.length (statics_entries sound)
  simp only [List.length_map, List.length_range] at ids slots entries
  omega

theorem executable_statics (sound : p.Sound ledger) (few : ledger.vars.size ≤ UInt16.size)
    (labels : Labels) :
    (p.executable labels).statics = slotted p.vars := by
  have perm := p.statics_perm
  rw [statics_slotted sound] at perm
  exact sorted_slotted (vars_count sound ▸ few) perm

end Program

/-! The table of functions. -/

/-- What the table says of a function: its name and signature, its slot and whether it has code. -/
def CompiledFunction.heading (f : CompiledFunction) : String × Ty × List Ty × UInt16 × Bool :=
  (f.name, f.returns, f.params, f.slot, f.code.isSome)

def headings (fs : List Function) : List (String × Ty × List Ty × UInt16 × Bool) :=
  fs.mapIdx fun place f => (f.name, f.returns, f.paramTypes, .ofNat place, f.body.isSome)

theorem Program.executable_functions {p : Program} {ledger : Ledger} (sound : p.Sound ledger)
    (labels : Labels) :
    (p.executable labels).functions.map CompiledFunction.heading = headings p.functions := by
  have compiled : (p.executable labels).functions.map CompiledFunction.heading =
      p.functions.map fun f =>
      (f.name, f.returns, f.paramTypes, .ofNat (f.id.elim 0 FunId.index), f.body.isSome) := by
    apply Lowering.compiledFunctions_map
    intro f base labels
    cases body :
      f.body <;> simp [CompiledFunction.heading, Function.compiled, Function.isHost, body]
  rw [compiled, headings]
  apply List.ext_getElem?
  intro place
  have numbered := congrArg (·[place]?) sound.places
  simp only [List.getElem?_map, List.getElem?_mapIdx] at numbered ⊢
  cases here : p.functions[place]? with
  | none => rfl
  | some f =>
      have below := (List.getElem?_eq_some_iff.mp here).1
      rw [here, List.getElem?_range below] at numbered
      have own : f.id = some ⟨place⟩ := Option.some.inj numbered
      simp [own]

end StackCompiler
