import StackCompiler.Proofs.Lowering.Expressions

/-!
Walking statements for code.

A statement is entered with nothing open and left with nothing open, whatever its expression did to
the mode. Markers of conditionals change the labels and are the only statements that can be refused.
-/
namespace StackCompiler

def Emitter.relabel (emitter : Emitter) (labels : Labels) : Emitter :=
  ⟨emitter.buffer, emitter.constants, labels, emitter.line⟩

namespace Emitter
variable (emitter : Emitter) (labels next : Labels)

@[simp] theorem relabel_labels : (emitter.relabel labels).labels = labels := rfl

@[simp] theorem relabel_line : (emitter.relabel labels).line = emitter.line := rfl

@[simp] theorem relabel_constants : (emitter.relabel labels).constants = emitter.constants := rfl

@[simp] theorem relabel_relabel :
    (emitter.relabel labels).relabel next = emitter.relabel next := rfl

@[simp] theorem relabel_wrote (code : List Written) (constants : List Constant) (line : Nat) :
    (emitter.relabel labels).wrote code constants line =
      (emitter.wrote code constants line).relabel labels := rfl

theorem marker_outcome {opcode : Opcode} (indexed : opcode.arity = 1)
    (step : EStateM Fault Labels UInt16) (e : Emitter) :
    (do
      let id ← labelling step
      write opcode [id]
      return id : Emit UInt16) e =
      match step e.labels with
      | .ok id labels =>
          .ok id ((e.wrote [⟨e.line, ⟨opcode, [id]⟩⟩] [] e.line).relabel labels)
      | .error fault labels => .error fault (e.relabel labels) := by
  rcases e with ⟨buffer, pool, labels, line⟩
  cases given : step labels with
  | error fault left => simp only [bind, EStateM.bind, labelling, given, relabel]
  | ok id left =>
      have formed : [id].length = opcode.arity := indexed.symm
      simp only [bind, EStateM.bind, labelling, given, write_run _ formed]
      rfl

end Emitter

namespace Labels

/-- The labels after a statement whose marker, if it is one, was accepted. -/
def after (labels : Labels) : Stmt → Labels
  | .enterIf .. => ⟨labels.issued + 1, labels.pending.push (.ofNat labels.issued), labels.limit⟩
  | .leaveIf _ => ⟨labels.issued, labels.pending.pop, labels.limit⟩
  | .expr .. | .declare .. | .beginBlock _ | .endBlock _ => labels

/-- Whether the marker of a statement is accepted. -/
def Allows (labels : Labels) : Stmt → Prop
  | .enterIf .. => labels.depth < labels.limit ∧ labels.issued < UInt16.size
  | .leaveIf _ => 0 < labels.depth
  | .expr .. | .declare .. | .beginBlock _ | .endBlock _ => True

def afterAll (labels : Labels) (stmts : List Stmt) : Labels := stmts.foldl after labels

def AllowsAll (labels : Labels) : List Stmt → Prop
  | [] => True
  | s :: rest => labels.Allows s ∧ (labels.after s).AllowsAll rest

end Labels

namespace Stmt
open Lowering

def constants (s : Stmt) : List Constant := s.root?.elim [] Expr.constants

def statics : Stmt → List StaticVariable
  | declare _ ⟨name, ty, _, some id⟩ => [⟨name, ty, .ofNat id.index⟩]
  | _ => []

def code (base : Nat) (labels : Labels) : Stmt → List Written
  | expr line value => value.code base false ++ if value.isAssign then [] else written line .pop
  | declare line ⟨_, ty, some init, some id⟩ =>
      init.code base true ++ indexed line (.store ty.kind) id.index
  | declare _ ⟨_, _, some init, none⟩ => init.code base true
  | declare _ ⟨_, _, none, _⟩ => []
  | beginBlock line => written line .pushStackPointer
  | endBlock line => written line .popStackPointer
  | enterIf line condition => condition.code base true ++ indexed line .goto labels.issued
  | leaveIf line => labels.pending.back?.elim [] fun id => [⟨line, ⟨.label, [id]⟩⟩]

def Ready (s : Stmt) : Prop :=
  (∀ root ∈ s.root?, root.Ready) ∧
    match s with
    | declare _ decl => decl.id.isSome
    | _ => True

def SlotFits : Stmt → Prop
  | declare _ decl => ∀ id ∈ decl.id, id.index < UInt16.size
  | _ => True

/-- How many values a statement waits for while its expression is visited. -/
def waiting : Stmt → Nat
  | declare .. | enterIf .. => 1
  | expr .. | beginBlock _ | endBlock _ | leaveIf _ => 0

def SlotsFit (s : Stmt) : Prop :=
  (∀ root ∈ s.root?, ∀ node ∈ root.nodes, node.SlotFits) ∧ s.SlotFits

end Stmt

namespace Lowering

def codeOfStmts (base : Nat) (labels : Labels) : List Stmt → List Written
  | [] => []
  | s :: rest => s.code base labels ++
      codeOfStmts (base + s.constants.length) (labels.after s) rest

end Lowering

/-- A limit of the format: markers that do not pair up or nest too deeply, or an index too wide. -/
def Fault.IsLimit : Fault → Prop
  | .labelUnderflow | .labelOverflow _ | .unclosedConditionals _ | .indexOverflow _ _ => True
  | _ => False

namespace Lowering

theorem overflow_is_limit {fault : Fault} (overflow : fault.IsOverflow) : fault.IsLimit := by
  obtain ⟨table, index, rfl⟩ := overflow
  trivial

section Markers
variable (emitter : Emitter) (statics : Array StaticVariable) (mode : Mode)
  (assigns calls values : Nat)

theorem marker_run {opcode : Opcode} (indexed : opcode.arity = 1)
    (step : EStateM Fault Labels UInt16) :
    emitting (do
        let id ← Emitter.labelling step
        Emitter.write opcode [id]
        return id : Emit UInt16) ⟨emitter, statics, mode, assigns, calls, values⟩ =
      match step emitter.labels with
      | .ok id labels =>
          .ok id ⟨(emitter.wrote [⟨emitter.line, ⟨opcode, [id]⟩⟩] [] emitter.line).relabel labels,
            statics, mode, assigns, calls, values⟩
      | .error fault labels =>
          .error fault ⟨emitter.relabel labels, statics, mode, assigns, calls, values⟩ := by
  rw [emitting, Emitter.marker_outcome indexed]
  cases step emitter.labels <;> rfl

theorem meets_jump :
    Meets (emitting Emitter.jumpAhead) ⟨emitter, statics, mode, assigns, calls, values⟩
      (fun _ t => t = ⟨(emitter.wrote (indexed emitter.line .goto emitter.labels.issued) []
          emitter.line).relabel ⟨emitter.labels.issued + 1,
            emitter.labels.pending.push (.ofNat emitter.labels.issued), emitter.labels.limit⟩,
          statics, mode, assigns, calls, values⟩ ∧
        emitter.labels.depth < emitter.labels.limit ∧ emitter.labels.issued < UInt16.size)
      (fun fault => fault.IsLimit ∧
        ¬ (emitter.labels.depth < emitter.labels.limit ∧ emitter.labels.issued < UInt16.size)) := by
  have ran := marker_run emitter statics mode assigns calls values (rfl : Opcode.goto.arity = 1)
    Labels.issue
  rw [Labels.issue_outcome] at ran
  by_cases deep : emitter.labels.limit ≤ emitter.labels.depth
  · rw [if_pos deep] at ran
    exact meets_failed ran ⟨trivial, fun room => absurd room.1 (Nat.not_lt.mpr deep)⟩
  rw [if_neg deep] at ran
  by_cases wide : UInt16.size ≤ emitter.labels.issued
  · rw [if_pos wide] at ran
    exact meets_failed ran ⟨trivial, fun room => absurd room.2 (Nat.not_lt.mpr wide)⟩
  · rw [if_neg wide] at ran
    exact meets_done ran ⟨rfl, Nat.lt_of_not_le deep, Nat.lt_of_not_le wide⟩

theorem meets_land :
    Meets (emitting Emitter.land) ⟨emitter, statics, mode, assigns, calls, values⟩
      (fun _ t => t = ⟨(emitter.wrote (emitter.labels.pending.back?.elim [] fun id =>
            [⟨emitter.line, ⟨.label, [id]⟩⟩]) [] emitter.line).relabel
          ⟨emitter.labels.issued, emitter.labels.pending.pop, emitter.labels.limit⟩,
          statics, mode, assigns, calls, values⟩ ∧ 0 < emitter.labels.depth)
      (fun fault => fault.IsLimit ∧ ¬ 0 < emitter.labels.depth) := by
  have ran := marker_run emitter statics mode assigns calls values (rfl : Opcode.label.arity = 1)
    Labels.resolve
  rw [Labels.resolve_outcome] at ran
  cases top : emitter.labels.pending.back? with
  | none =>
      rw [top] at ran
      have idle : emitter.labels.pending = #[] := by simpa using top
      exact meets_failed ran ⟨trivial, by simp [Labels.depth, idle]⟩
  | some id =>
      rw [top] at ran
      have filled : 0 < emitter.labels.pending.size := by
        rcases Nat.eq_zero_or_pos emitter.labels.pending.size with none | some
        · simp [Array.eq_empty_of_size_eq_zero none] at top
        · exact some
      exact meets_done ran ⟨rfl, filled⟩

end Markers

def WalksStmt (s : Stmt) (emitter : Emitter) (statics : Array StaticVariable) : Prop :=
  Meets (generator.walkStmt s) ⟨emitter, statics, .load, 0, 0, 0⟩
    (fun _ t => t = ⟨(emitter.wrote (s.code emitter.constants.size emitter.labels) s.constants
          s.line).relabel (emitter.labels.after s), statics ++ s.statics.toArray, .load, 0, 0, 0⟩ ∧
      (emitter.constants.size ≤ UInt16.size →
        emitter.constants.size + s.constants.length ≤ UInt16.size) ∧
      emitter.labels.Allows s ∧ s.SlotFits)
    (fun fault => s.Ready → fault.IsLimit ∧
      ¬ ((∀ root ∈ s.root?, root.Fits emitter.constants.size) ∧ emitter.labels.Allows s ∧
        s.SlotFits))

theorem enter_stmt (s : Stmt) (emitter : Emitter) (statics : Array StaticVariable) :
    enterStmt s ⟨emitter, statics, .load, 0, 0, 0⟩ =
      .ok () ⟨emitter.wrote [] [] s.line, statics, .load, 0, 0, s.waiting⟩ := by
  unfold enterStmt
  rw [bind_run (atLine_run ..)]
  cases s <;> rfl

theorem walk_bare {s : Stmt} (bare : s.root? = none) {done : Unit → Lowering → Prop}
    {failed : Fault → Prop} {emitter : Emitter} {statics : Array StaticVariable}
    (leave : Meets (leaveStmt s) ⟨emitter.wrote [] [] s.line, statics, .load, 0, 0, s.waiting⟩
      done failed) :
    Meets (generator.walkStmt s) ⟨emitter, statics, .load, 0, 0, 0⟩ done failed := by
  unfold Visitor.walkStmt
  apply meets_run (enter_stmt ..)
  rw [bare]
  exact leave

theorem walk_expr_stmt (line : Nat) (value : Expr) (emitter : Emitter)
    (statics : Array StaticVariable) : WalksStmt (.expr line value) emitter statics := by
  unfold WalksStmt Visitor.walkStmt
  apply meets_run (enter_stmt ..)
  apply meets_bind (walk_expr value ..)
  · intro fault spills ready
    obtain ⟨overflow, wide⟩ := spills (ready.1 value rfl)
    exact ⟨overflow_is_limit overflow, fun fits => wide (by simpa using fits.1 value rfl)⟩
  rintro _ _ ⟨rfl, bound⟩
  apply meets_run (atLine_run ..)
  apply meets_run (get_run _)
  have own : (Stmt.expr line value).constants = value.constants := rfl
  have idle : (Stmt.expr line value).waiting = 0 := rfl
  -- Nobody waits for the value, so an assignment has not kept it and there is nothing to pop.
  cases plain : value.isAssign with
  | true =>
      refine meets_done rfl ⟨?_, by simpa [own] using bound, trivial, trivial⟩
      simp [plain, idle, waiting, Stmt.code, own, Stmt.statics, Labels.after, Stmt.line]
      rfl
  | false =>
      apply meets_done (emit_run _ _ _ _ _ _ rfl)
      refine ⟨?_, by simpa [own] using bound, trivial, trivial⟩
      simp [plain, idle, waiting, Stmt.code, own, Stmt.statics, Labels.after, Stmt.line, written]
      rfl

theorem meets_record (emitter : Emitter) (statics : Array StaticVariable) (mode : Mode)
    (assigns calls values : Nat) (name : String) (ty : Ty) (id : VarId) :
    Meets (recordVariable name ty id) ⟨emitter, statics, mode, assigns, calls, values⟩
      (fun _ t =>
        t = ⟨emitter, statics.push ⟨name, ty, .ofNat id.index⟩, mode, assigns, calls, values⟩ ∧
          id.index < UInt16.size)
      (fun fault => fault.IsOverflow ∧ UInt16.size ≤ id.index) := by
  unfold recordVariable slotOf
  by_cases wide : UInt16.size ≤ id.index
  · rw [if_pos wide]
    exact ⟨⟨_, _, rfl⟩, wide⟩
  · rw [if_neg wide]
    exact ⟨rfl, Nat.lt_of_not_le wide⟩

theorem meets_define (emitter : Emitter) (statics : Array StaticVariable) (name : String) (ty : Ty)
    (id : VarId) :
    Meets (do
        store ty id
        recordVariable name ty id)
      ⟨emitter, statics, .load, 0, 0, 0⟩
      (fun _ t => t =
        ⟨emitter.wrote (indexed emitter.line (.store ty.kind) id.index) [] emitter.line,
        statics.push ⟨name, ty, .ofNat id.index⟩, .load, 0, 0, 0⟩ ∧ id.index < UInt16.size)
      (fun fault => fault.IsOverflow ∧ UInt16.size ≤ id.index) := by
  apply meets_bind (meets_indexed _ _ _ _ _ _ rfl id.index "static")
  · exact fun _ failed => failed
  rintro _ _ rfl
  exact meets_record ..

theorem walk_declare (line : Nat) (decl : Declaration) (emitter : Emitter)
    (statics : Array StaticVariable) : WalksStmt (.declare line decl) emitter statics := by
  obtain ⟨name, ty, init, id⟩ := decl
  unfold WalksStmt Visitor.walkStmt
  apply meets_run (enter_stmt ..)
  cases init with
  | none =>
      -- Without an initializer nothing is written, but the variable enters the table.
      apply meets_run (atLine_run ..)
      apply meets_run (closeValue_run ..)
      cases id with
      | none => exact fun ready => absurd ready.2 (by simp)
      | some id =>
          apply meets_weaken (meets_record ..)
          · rintro _ t ⟨rfl, below⟩
            refine ⟨?_, by simp [Stmt.constants,
              Stmt.root?], trivial, by simpa [Stmt.SlotFits] using below⟩
            simp [Stmt.code, Stmt.constants, Stmt.statics, Stmt.root?, Labels.after, Stmt.line,
              Stmt.waiting]
            rfl
          · rintro fault ⟨overflow, wide⟩ _
            exact ⟨overflow_is_limit overflow, fun fits =>
              absurd (fits.2.2 id rfl) (Nat.not_lt.mpr wide)⟩
  | some init =>
  apply meets_bind (walk_value (walk_expr init) _ _ _ _ _ (by simp [Stmt.waiting, waiting]))
  · intro fault spills ready
    obtain ⟨overflow, wide⟩ := spills (ready.1 init rfl)
    exact ⟨overflow_is_limit overflow, fun fits => wide (by simpa using fits.1 init rfl)⟩
  rintro _ _ ⟨rfl, bound⟩
  apply meets_run (atLine_run ..)
  apply meets_run (closeValue_run ..)
  cases id with
  | none => exact fun ready => absurd ready.2 (by simp)
  | some id =>
      apply meets_weaken (meets_define ..)
      · rintro _ t ⟨rfl, below⟩
        refine ⟨?_, by simpa [Stmt.constants, Stmt.root?] using bound, trivial,
          by simpa [Stmt.SlotFits] using below⟩
        simp [Stmt.code, Stmt.constants, Stmt.statics, Stmt.root?, Labels.after, Stmt.line]
        rfl
      · rintro fault ⟨overflow, wide⟩ _
        exact ⟨overflow_is_limit overflow, fun fits =>
          absurd (fits.2.2 id rfl) (Nat.not_lt.mpr wide)⟩

theorem walk_enter_if (line : Nat) (condition : Expr) (emitter : Emitter)
    (statics : Array StaticVariable) : WalksStmt (.enterIf line condition) emitter statics := by
  unfold WalksStmt Visitor.walkStmt
  apply meets_run (enter_stmt ..)
  apply meets_bind (walk_value (walk_expr condition) _ _ _ _ _ (by simp [Stmt.waiting, waiting]))
  · intro fault spills ready
    obtain ⟨overflow, wide⟩ := spills (ready.1 condition rfl)
    exact ⟨overflow_is_limit overflow, fun fits => wide (by simpa using fits.1 condition rfl)⟩
  rintro _ _ ⟨rfl, bound⟩
  apply meets_run (atLine_run ..)
  apply meets_run (closeValue_run ..)
  apply meets_bind (meets_jump ..)
  · rintro fault ⟨limit, refused⟩ _
    exact ⟨limit, fun fits => refused (by simpa [Labels.Allows] using fits.2.1)⟩
  rintro _ _ ⟨rfl, allowed⟩
  refine meets_done rfl ⟨?_, ?_, by simpa [Labels.Allows] using allowed, trivial⟩
  · simp [Stmt.code, Stmt.constants, Stmt.statics, Stmt.root?, Labels.after, Stmt.line,
      Stmt.waiting]
  · simpa [Stmt.constants, Stmt.root?] using bound

theorem walk_stmt (s : Stmt) (emitter : Emitter) (statics : Array StaticVariable) :
    WalksStmt s emitter statics := by
  cases s with
  | expr line value => exact walk_expr_stmt line value emitter statics
  | declare line decl => exact walk_declare line decl emitter statics
  | beginBlock line | endBlock line =>
      apply walk_bare rfl
      apply meets_run (atLine_run ..)
      apply meets_done (emit_run _ _ _ _ _ _ rfl)
      refine ⟨?_, by simp [Stmt.constants, Stmt.root?], trivial, trivial⟩
      simp [Stmt.code, Stmt.constants, Stmt.statics, Stmt.root?, Labels.after, written, Stmt.line,
        Stmt.waiting]
      rfl
  | enterIf line condition => exact walk_enter_if line condition emitter statics
  | leaveIf line =>
      apply walk_bare rfl
      apply meets_run (atLine_run ..)
      apply meets_bind (meets_land ..)
      · rintro fault ⟨limit, refused⟩ _
        exact ⟨limit, fun fits => refused fits.2.1⟩
      rintro _ _ ⟨rfl, allowed⟩
      refine meets_done rfl ⟨?_, by simp [Stmt.constants, Stmt.root?], allowed, trivial⟩
      simp [Stmt.code, Stmt.constants, Stmt.statics, Stmt.root?, Labels.after, Stmt.line,
        Stmt.waiting]

theorem walk_stmts (stmts : List Stmt) (emitter : Emitter) (statics : Array StaticVariable) :
    Meets (generator.walkStmts stmts) ⟨emitter, statics, .load, 0, 0, 0⟩
      (fun _ t => (∃ line, t = ⟨(emitter.wrote
            (codeOfStmts emitter.constants.size emitter.labels stmts)
            (stmts.flatMap Stmt.constants) line).relabel (emitter.labels.afterAll stmts),
          statics ++ (stmts.flatMap Stmt.statics).toArray, .load, 0, 0, 0⟩) ∧
        (emitter.constants.size ≤ UInt16.size →
          emitter.constants.size + (stmts.flatMap Stmt.constants).length ≤ UInt16.size) ∧
        emitter.labels.AllowsAll stmts ∧ ∀ s ∈ stmts, s.SlotFits)
      (fun fault => (∀ s ∈ stmts, s.Ready) → fault.IsLimit ∧
        ¬ (emitter.constants.size + (stmts.flatMap Stmt.constants).length ≤ UInt16.size ∧
          emitter.labels.AllowsAll stmts ∧ ∀ s ∈ stmts, s.SlotsFit)) := by
  induction stmts generalizing emitter statics with
  | nil =>
      refine ⟨⟨emitter.line, ?_⟩, by simp, trivial, by simp⟩
      simp [codeOfStmts, Emitter.wrote_nothing, Labels.afterAll]
      rfl
  | cons s rest ih =>
      rw [Visitor.walkStmts_cons]
      apply meets_bind (walk_stmt s emitter statics)
      · intro fault failed ready
        obtain ⟨limit, wide⟩ := failed (ready s (by simp))
        refine ⟨limit, ?_⟩
        rintro ⟨room, allowed, slots⟩
        refine wide ⟨?_, allowed.1, (slots s (by simp)).2⟩
        intro root held
        refine ⟨?_, (slots s (by simp)).1 root held⟩
        have own : s.constants = root.constants := by
          simp only [Stmt.constants, Option.mem_def.mp held, Option.elim]
        simp only [List.flatMap_cons, List.length_append, own] at room
        omega
      rintro _ _ ⟨rfl, bound, allowed, slot⟩
      apply meets_weaken (ih _ _)
      · rintro _ t ⟨⟨line, rfl⟩, restBound, restAllowed, restSlots⟩
        refine ⟨⟨line, ?_⟩, ?_, ⟨allowed, restAllowed⟩, ?_⟩
        · simp [codeOfStmts, Labels.afterAll]
        · simp at restBound ⊢
          omega
        · simpa using ⟨slot, restSlots⟩
      · intro fault failed ready
        obtain ⟨limit, wide⟩ := failed fun next member => ready next (by simp [member])
        refine ⟨limit, ?_⟩
        rintro ⟨room, ⟨_, restAllowed⟩, slots⟩
        refine wide ⟨?_, restAllowed, ?_⟩
        · simp at room ⊢
          omega
        · exact fun next member => slots next (by simp [member])

end Lowering
end StackCompiler
