import StackCompiler.Proofs.Scope.Layers

/-!
The ledger as a stack of scopes.

The textbook model keeps a frame for every open block, and a name means its latest entry in the
innermost frame that has one. `Models` relates a ledger to a stack of frames; every call keeps the
two related and answers alike on both sides, so every sequence of calls does.
-/
namespace StackCompiler

structure Named where
  name : String
  index : Nat
deriving DecidableEq, Repr

/-- What one open block declared, the latest entry first. -/
structure Frame where
  vars : List Named
  functions : List Named
deriving DecidableEq, Repr

/-- The frames of the open blocks. The outermost one is that of the whole program and never
leaves. -/
structure Scopes where
  inner : Frame
  outer : List Frame
  vars : Nat
  functions : Nat
  limit : Nat
deriving DecidableEq, Repr

inductive Recording
  | declareVariable (entry : VariableEntry)
  | declareFunction (entry : FunctionEntry)
  | cross (boundary : Boundary)
deriving DecidableEq, Repr

inductive Answer
  | variable (id : VarId)
  | function (id : FunId)
  | crossed
  | refused (fault : Fault)
deriving DecidableEq, Repr

def latestOf (name : String) (entries : List Named) : Option Nat :=
  (entries.find? (·.name == name)).map Named.index

namespace Scopes

def empty (limit : Nat) : Scopes := ⟨⟨[], []⟩, [], 0, 0, limit⟩

def frames (scopes : Scopes) : List Frame := scopes.inner :: scopes.outer

def depth (scopes : Scopes) : Nat := scopes.outer.length

def findVariable (scopes : Scopes) (name : String) : Option VarId :=
  (scopes.frames.findSome? fun frame => latestOf name frame.vars).map VarId.mk

def findFunction (scopes : Scopes) (name : String) : Option FunId :=
  (scopes.frames.findSome? fun frame => latestOf name frame.functions).map FunId.mk

def findVariableInBlock (scopes : Scopes) (name : String) : Option VarId :=
  (latestOf name scopes.inner.vars).map VarId.mk

def findFunctionInBlock (scopes : Scopes) (name : String) : Option FunId :=
  (latestOf name scopes.inner.functions).map FunId.mk

def step (scopes : Scopes) (call : Recording) : Answer × Scopes :=
  let ⟨⟨vars, functions⟩, outer, varCount, functionCount, limit⟩ := scopes
  match call with
  | .declareVariable entry =>
      (.variable ⟨varCount⟩,
        ⟨⟨⟨entry.name, varCount⟩ :: vars, functions⟩, outer, varCount + 1, functionCount, limit⟩)
  | .declareFunction entry =>
      (.function ⟨functionCount⟩,
        ⟨⟨vars, ⟨entry.name, functionCount⟩ :: functions⟩, outer, varCount,
          functionCount + 1, limit⟩)
  | .cross .begins =>
      if outer.length < limit then
        (.crossed, ⟨⟨[], []⟩, ⟨vars, functions⟩ ::
          outer, varCount, functionCount, limit⟩)
      else (.refused (.blockOverflow limit), scopes)
  | .cross .ends =>
      match outer with
      | [] => (.refused .blockUnderflow, scopes)
      | around :: outer => (.crossed, ⟨around, outer, varCount, functionCount, limit⟩)

def run (scopes : Scopes) : List Recording → List Answer × Scopes
  | [] => ([], scopes)
  | call :: rest =>
      let (answer, next) := scopes.step call
      let (answers, final) := next.run rest
      (answer :: answers, final)

end Scopes

namespace Ledger

/-- A call that fails leaves the ledger as it is. -/
def cross (ledger : Ledger) (boundary : Boundary) : Answer × Ledger :=
  match (match boundary with
    | .begins => ledger.openBlock
    | .ends => ledger.closeBlock) with
  | .ok next => (.crossed, next)
  | .error fault => (.refused fault, ledger)

def step (ledger : Ledger) (call : Recording) : Answer × Ledger :=
  match call with
  | .declareVariable entry => (ledger.addVariable entry).map Answer.variable id
  | .declareFunction entry => (ledger.addFunction entry).map Answer.function id
  | .cross boundary => ledger.cross boundary

def run (ledger : Ledger) : List Recording → List Answer × Ledger
  | [] => ([], ledger)
  | call :: rest =>
      let (answer, next) := ledger.step call
      let (answers, final) := next.run rest
      (answer :: answers, final)

structure Holds {α : Type} (history : Array α) (nameOf : α → String)
    (length : Checkpoint → Nat) (marks : List Checkpoint) (inner : List Named)
    (outer : List (List Named)) : Prop where
  layers : Layered length marks history.size (inner.map Named.index)
    (outer.map fun entries => entries.map Named.index)
  names : ∀ entries ∈ inner :: outer, ∀ entry ∈ entries,
    (history[entry.index]?).map nameOf = some entry.name

section
variable {α : Type} {history : Array α} {nameOf : α → String} {length : Checkpoint → Nat}
  {marks : List Checkpoint} {inner next : List Named} {outer : List (List Named)}

theorem find_named {entries : List Named} (name : String)
    (names : ∀ entry ∈ entries, (history[entry.index]?).map nameOf = some entry.name) :
    (entries.map Named.index).find? (fun index => history[index]?.any (nameOf · == name)) =
      latestOf name entries := by
  induction entries with
  | nil => rfl
  | cons entry rest ih =>
      have own := names entry List.mem_cons_self
      obtain ⟨found, recorded, same⟩ := Option.map_eq_some_iff.mp own
      have rest := ih fun other member => names other (List.mem_cons_of_mem _ member)
      by_cases hit : entry.name = name
      · simp [latestOf, recorded, same, hit]
      · simpa [latestOf, recorded, same, hit] using rest

/-- A lookup from the start finds the latest entry of the innermost block that has one. -/
theorem lookup_all (held : Holds history nameOf length marks inner outer) (name : String) :
    lookup history nameOf length marks name 0 history.size =
      (inner :: outer).findSome? (latestOf name) := by
  have flat : inner.map Named.index ++ (outer.map fun entries => entries.map Named.index).flatten =
      ((inner :: outer).flatten).map Named.index := by
    simp [List.map_flatten]
  rw [lookup, Nat.min_self, scan_eq, visible_layers held.layers, flat, find_named]
  -- The latest entry in all frames together is the latest in the innermost frame that has one.
  · generalize inner :: outer = blocks
    induction blocks with
    | nil => rfl
    | cons entries rest ih =>
        simp only [latestOf, List.flatten_cons, List.find?_append, List.findSome?_cons] at ih ⊢
        cases entries.find? (·.name == name) with
        | some entry => rfl
        | none => exact ih
  · intro entry member
    obtain ⟨entries, block, inside⟩ := List.mem_flatten.mp member
    exact held.names entries block entry inside

theorem lookup_inner (held : Holds history nameOf length marks inner outer) (name : String) :
    lookup history nameOf length marks name (blockStart length 0 marks) history.size =
      latestOf name inner := by
  rw [lookup, Nat.min_self, scan_eq, visible_inner held.layers,
    find_named name (held.names inner List.mem_cons_self)]

theorem holds_start (nameOf : α → String) (length : Checkpoint → Nat) :
    Holds #[] nameOf length [] [] [] :=
  ⟨layered_start, by simp⟩

theorem holds_push (held : Holds history nameOf length marks inner outer) (entry : α) :
    Holds (history.push entry) nameOf length marks (⟨nameOf entry, history.size⟩ :: inner)
      outer := by
  -- A longer history has the old entries at their old places.
  have kept : ∀ other : Named, (history[other.index]?).map nameOf = some other.name →
      ((history.push entry)[other.index]?).map nameOf = some other.name := by
    intro other known
    obtain ⟨found, recorded, same⟩ := Option.map_eq_some_iff.mp known
    obtain ⟨below, _⟩ := Array.getElem?_eq_some_iff.mp recorded
    rw [Array.getElem?_push_lt below]
    simpa [below] using known
  refine ⟨by simpa using layered_push held.layers, ?_⟩
  intro entries block other member
  rcases List.mem_cons.mp block with rfl | around
  · rcases List.mem_cons.mp member with rfl | before
    · simp
    · exact kept other (held.names inner List.mem_cons_self other before)
  · exact kept other (held.names entries (List.mem_cons_of_mem _ around) other member)

theorem holds_open (held : Holds history nameOf length marks inner outer) (mark : Checkpoint)
    (begins : mark.boundary = .begins) (here : length mark = history.size) :
    Holds history nameOf length (mark :: marks) [] (inner :: outer) := by
  refine ⟨layered_open mark begins here held.layers, ?_⟩
  intro entries block entry member
  rcases List.mem_cons.mp block with rfl | around
  · cases member
  · exact held.names entries around entry member

theorem holds_close (held : Holds history nameOf length marks inner (next :: outer))
    (mark : Checkpoint) (ends : mark.boundary = .ends) (here : length mark = history.size) :
    Holds history nameOf length (mark :: marks) next outer :=
  ⟨layered_close mark ends here held.layers,
    fun entries block => held.names entries (List.mem_cons_of_mem _ block)⟩

end

/-- A ledger and a stack of frames say the same of every name. -/
structure Models (ledger : Ledger) (scopes : Scopes) : Prop where
  vars : Holds ledger.vars VariableEntry.name Checkpoint.vars ledger.checkpoints scopes.inner.vars
    (scopes.outer.map Frame.vars)
  functions : Holds ledger.functions FunctionEntry.name Checkpoint.functions ledger.checkpoints
    scopes.inner.functions (scopes.outer.map Frame.functions)
  varCount : ledger.vars.size = scopes.vars
  functionCount : ledger.functions.size = scopes.functions
  depth : ledger.depth = scopes.depth
  limit : ledger.limit = scopes.limit

namespace Models
variable {ledger : Ledger} {scopes : Scopes} (models : ledger.Models scopes) (name : String)
include models

theorem findVariable_eq : ledger.findVariable name = scopes.findVariable name := by
  rw [Ledger.findVariable, lookup_all models.vars, Scopes.findVariable, Scopes.frames,
    ← List.map_cons, List.findSome?_map]
  rfl

theorem findFunction_eq : ledger.findFunction name = scopes.findFunction name := by
  rw [Ledger.findFunction, lookup_all models.functions, Scopes.findFunction, Scopes.frames,
    ← List.map_cons, List.findSome?_map]
  rfl

theorem findVariableInBlock_eq :
    ledger.findVariableInBlock name = scopes.findVariableInBlock name := by
  rw [Ledger.findVariableInBlock, lookup_inner models.vars, Scopes.findVariableInBlock]

theorem findFunctionInBlock_eq :
    ledger.findFunctionInBlock name = scopes.findFunctionInBlock name := by
  rw [Ledger.findFunctionInBlock, lookup_inner models.functions, Scopes.findFunctionInBlock]

end Models

theorem models_empty (limit : Nat) : (empty limit).Models (.empty limit) :=
  ⟨holds_start _ _, holds_start _ _, rfl, rfl, rfl, rfl⟩

section
variable {ledger : Ledger} {scopes : Scopes} (models : ledger.Models scopes)
include models

theorem addVariable_models (entry : VariableEntry) :
    (ledger.step (.declareVariable entry)).1 = (scopes.step (.declareVariable entry)).1 ∧
      (ledger.step (.declareVariable entry)).2.Models (scopes.step (.declareVariable entry)).2 := by
  obtain ⟨vars, functions, varCount, functionCount, depth, limit⟩ := models
  refine ⟨congrArg (fun index => Answer.variable ⟨index⟩) varCount, ?_⟩
  refine ⟨?_, functions, ?_, functionCount, depth, limit⟩
  · have pushed := holds_push vars entry
    rw [varCount] at pushed
    exact pushed
  · exact (Array.size_push _).trans (congrArg (· + 1) varCount)

theorem addFunction_models (entry : FunctionEntry) :
    (ledger.step (.declareFunction entry)).1 = (scopes.step (.declareFunction entry)).1 ∧
      (ledger.step (.declareFunction entry)).2.Models (scopes.step (.declareFunction entry)).2 := by
  obtain ⟨vars, functions, varCount, functionCount, depth, limit⟩ := models
  refine ⟨congrArg (fun index => Answer.function ⟨index⟩) functionCount, ?_⟩
  refine ⟨vars, ?_, varCount, ?_, depth, limit⟩
  · have pushed := holds_push functions entry
    rw [functionCount] at pushed
    exact pushed
  · exact (Array.size_push _).trans (congrArg (· + 1) functionCount)

theorem openBlock_models :
    (ledger.step (.cross .begins)).1 = (scopes.step (.cross .begins)).1 ∧
      (ledger.step (.cross .begins)).2.Models (scopes.step (.cross .begins)).2 := by
  have full : ledger.limit ≤ ledger.depth ↔ ¬ scopes.outer.length < scopes.limit := by
    rw [models.limit, models.depth, Scopes.depth, Nat.not_lt]
  by_cases room : scopes.outer.length < scopes.limit
  · have opens : ledger.step (.cross .begins) = (.crossed, { ledger with
        checkpoints := ledger.checkpoint .begins :: ledger.checkpoints, depth := ledger.depth +
          1 }) := by
      simp only [step, cross, openBlock, full, room, not_true_eq_false, ↓reduceIte]
    simp only [opens, Scopes.step, room, ↓reduceIte]
    obtain ⟨vars, functions, varCount, functionCount, depth, limit⟩ := models
    exact ⟨trivial, holds_open vars _ rfl rfl, holds_open functions _ rfl rfl, varCount,
      functionCount, congrArg (· + 1) depth, limit⟩
  · have refused :
        ledger.step (.cross .begins) = (.refused (.blockOverflow scopes.limit), ledger) := by
      rw [← models.limit]
      simp only [step, cross, openBlock, full, room, not_false_eq_true, ↓reduceIte]
    simp only [refused, Scopes.step, room, ↓reduceIte]
    exact ⟨trivial, models⟩

theorem closeBlock_models :
    (ledger.step (.cross .ends)).1 = (scopes.step (.cross .ends)).1 ∧
      (ledger.step (.cross .ends)).2.Models (scopes.step (.cross .ends)).2 := by
  obtain ⟨inner, outer, varCount, functionCount, limit⟩ := scopes
  have deep : ledger.depth = outer.length := models.depth
  cases outer with
  | nil =>
      have refused : ledger.step (.cross .ends) = (.refused .blockUnderflow, ledger) := by
        simp only [step, cross, closeBlock, deep, List.length_nil, ↓reduceIte]
      simp only [refused, Scopes.step]
      exact ⟨trivial, models⟩
  | cons around outer =>
      have closes : ledger.step (.cross .ends) = (.crossed, { ledger with
          checkpoints := ledger.checkpoint .ends ::
            ledger.checkpoints, depth := outer.length }) := by
        simp [step, cross, closeBlock, deep]
      simp only [closes, Scopes.step]
      exact ⟨trivial, holds_close models.vars _ rfl rfl, holds_close models.functions _ rfl rfl,
        models.varCount, models.functionCount, rfl, models.limit⟩

/-- One call: the two answer alike and stay related. -/
theorem step_models (call : Recording) :
    (ledger.step call).1 = (scopes.step call).1 ∧
      (ledger.step call).2.Models (scopes.step call).2 := by
  cases call with
  | declareVariable entry => exact addVariable_models models entry
  | declareFunction entry => exact addFunction_models models entry
  | cross boundary =>
      cases boundary with
      | begins => exact openBlock_models models
      | ends => exact closeBlock_models models

theorem run_models (calls : List Recording) :
    (ledger.run calls).1 = (scopes.run calls).1 ∧
      (ledger.run calls).2.Models (scopes.run calls).2 := by
  induction calls generalizing ledger scopes with
  | nil => exact ⟨rfl, models⟩
  | cons call rest ih =>
      obtain ⟨answer, next⟩ := step_models models call
      obtain ⟨answers, final⟩ := ih next
      refine ⟨?_, final⟩
      simp only [run, Scopes.run, answer, answers]

end

theorem run_within_limit (scopes : Scopes) (calls : List Recording)
    (bound : scopes.depth ≤ scopes.limit) :
    (scopes.run calls).2.depth ≤ scopes.limit ∧ (scopes.run calls).2.limit = scopes.limit := by
  induction calls generalizing scopes with
  | nil => exact ⟨bound, rfl⟩
  | cons call rest ih =>
      have step : (scopes.step call).2.depth ≤ scopes.limit ∧
          (scopes.step call).2.limit = scopes.limit := by
        obtain ⟨inner, outer, varCount, functionCount, limit⟩ := scopes
        match call, outer with
        | .declareVariable _, _ | .declareFunction _, _ => exact ⟨bound, rfl⟩
        | .cross .begins, outer =>
            by_cases room : outer.length < limit
            · simp only [Scopes.step, room, ↓reduceIte]
              exact ⟨room, trivial⟩
            · simp only [Scopes.step, room, ↓reduceIte]
              exact ⟨bound, trivial⟩
        | .cross .ends, [] => exact ⟨bound, rfl⟩
        | .cross .ends, _ :: _ => exact ⟨Nat.le_of_succ_le bound, rfl⟩
      have final := ih (scopes.step call).2 (by rw [step.2]; exact step.1)
      rw [step.2] at final
      exact final

/-- After every sequence of calls on a fresh ledger, all that can be asked of it is answered as
the stack of frames answers it; and a boundary is refused only at the limit or at the outermost
frame. -/
theorem ledger_refines_frames (limit : Nat) (calls : List Recording) :
    let ledger := ((empty limit).run calls).2
    let scopes := ((Scopes.empty limit).run calls).2
    ((empty limit).run calls).1 = ((Scopes.empty limit).run calls).1 ∧
      (∀ name, ledger.findVariable name = scopes.findVariable name ∧
        ledger.findFunction name = scopes.findFunction name ∧
        ledger.findVariableInBlock name = scopes.findVariableInBlock name ∧
        ledger.findFunctionInBlock name = scopes.findFunctionInBlock name) ∧
      ledger.depth = scopes.depth ∧
      (∀ fault, (ledger.cross .ends).1 = .refused fault ↔
        fault = .blockUnderflow ∧ scopes.depth = 0) ∧
      (∀ fault, (ledger.cross .begins).1 = .refused fault ↔
        fault = .blockOverflow limit ∧ scopes.depth = limit) ∧
      ∀ boundary fault, (ledger.cross boundary).1 = .refused fault →
        (ledger.cross boundary).2 = ledger := by
  intro ledger scopes
  obtain ⟨answers, models⟩ :
    ((empty limit).run calls).1 = ((Scopes.empty limit).run calls).1 ∧
    ledger.Models scopes := run_models (models_empty limit) calls
  obtain ⟨within, same⟩ : scopes.depth ≤ limit ∧ scopes.limit = limit :=
    run_within_limit (.empty limit) calls (Nat.zero_le _)
  have finds := fun name => And.intro (models.findVariable_eq name) (And.intro
    (models.findFunction_eq name) (And.intro (models.findVariableInBlock_eq name)
      (models.findFunctionInBlock_eq name)))
  refine ⟨answers, finds, models.depth, ?_, ?_, ?_⟩
  · intro fault
    have alike : (ledger.cross .ends).1 = (scopes.step (.cross .ends)).1 :=
      (closeBlock_models models).1
    rw [alike]
    obtain ⟨inner, outer, varCount, functionCount, top⟩ := scopes
    cases outer <;> simp [Scopes.step, Scopes.depth, eq_comm]
  · intro fault
    have alike : (ledger.cross .begins).1 = (scopes.step (.cross .begins)).1 :=
      (openBlock_models models).1
    rw [alike]
    obtain ⟨inner, outer, varCount, functionCount, top⟩ := scopes
    cases same
    by_cases room : outer.length < top
    · simp [Scopes.step, Scopes.depth, room, Nat.ne_of_lt room]
    -- More than the limit is never open, so a stack that is not below it stands at it.
    · have full : outer.length = top := Nat.le_antisymm within (Nat.le_of_not_lt room)
      simp [Scopes.step, Scopes.depth, full, eq_comm]
  · intro boundary fault refused
    unfold cross at refused ⊢
    split at refused
    · cases refused
    · rfl

end Ledger
end StackCompiler
