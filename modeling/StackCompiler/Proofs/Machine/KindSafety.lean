import StackCompiler.Proofs.Machine.Kinds

/-!
Which executables give every instruction the operands it takes.

Statements leave the stack as they found it and jump only between statements, so the body of a
function that starts on its arguments is safe along every path exactly if it names functions only to
call them.
-/
namespace StackCompiler

/-- Functions are named only to be called, or where the value of a whole statement is dropped. -/
def Stmt.CallsOnly : Stmt → Prop
  | expr _ value => value.CallsOnly
  | declare _ decl => ∀ init ∈ decl.init, init.CallsOnly ∧ init.isReference = false
  | enterIf _ condition => condition.CallsOnly ∧ condition.isReference = false
  | beginBlock _ | endBlock _ | leaveIf _ => True

instance : DecidablePred Stmt.CallsOnly
  | .expr _ value => inferInstanceAs (Decidable value.CallsOnly)
  | .declare _ decl =>
      inferInstanceAs (Decidable (∀ init ∈ decl.init, init.CallsOnly ∧ init.isReference = false))
  | .enterIf _ condition =>
      inferInstanceAs (Decidable (condition.CallsOnly ∧ condition.isReference = false))
  | .beginBlock _ | .endBlock _ | .leaveIf _ => inferInstanceAs (Decidable True)

def Function.CallsOnly (f : Function) : Prop := ∀ s ∈ f.stmts, s.CallsOnly

instance : DecidablePred Function.CallsOnly := fun f =>
  inferInstanceAs (Decidable (∀ s ∈ f.stmts, s.CallsOnly))

def Program.CallsOnly (p : Program) : Prop :=
  (∀ s ∈ p.statements, s.CallsOnly) ∧ ∀ f ∈ p.functions, f.CallsOnly

instance : DecidablePred Program.CallsOnly := fun p =>
  inferInstanceAs (Decidable ((∀ s ∈ p.statements, s.CallsOnly) ∧ ∀ f ∈ p.functions, f.CallsOnly))

namespace Executable
open Lowering
variable {exe : Executable} {ledger : Ledger}

theorem track_taken (signs : exe.Signs ledger) {e : Expr} {ty : Ty} (sound : e.Sound ledger ty)
    (base : Nat) (stack : List Operand) :
    (exe.track (e.code base true) stack).bind (Operand.take [ty.kind]) =
      if e.CallsOnly ∧ e.isReference = false then some stack else none := by
  -- Where a value is taken, an expression must not name a function either.
  rcases tracks_waited (expr_tracks signs e sound.1) with ⟨operand, known, tracked⟩
  rw [tracked, when_bind, Operand.take_typed sound.2 known, when_when]
  rfl

theorem stmt_tracks (signs : exe.Signs ledger) {s : Stmt} (sound : s.Sound ledger) (base : Nat)
    (labels : Labels) (stack : List Operand) :
    exe.track (s.code base labels) stack = if s.CallsOnly then some stack else none := by
  cases s with
  | expr line value =>
      rcases sound with ⟨ty, nodes, typed⟩
      rcases expr_tracks signs value nodes with ⟨operand, _, tracked⟩
      rw [Stmt.code, track_append, tracked, when_bind]
      cases assigned : value.isAssign <;> rfl
  | declare line decl =>
      rcases decl with ⟨name, ty, init, id⟩
      rcases sound with ⟨⟨id, rfl, _⟩, inits⟩
      cases init with
      | none => exact (if_pos fun _ absent => absurd absent (Option.not_mem_none _)).symm
      | some init =>
          have stored :
              exe.track (indexed line (.store ty.kind) id.index) = Operand.take [ty.kind] :=
            funext (track_store line id.index ty.kind)
          rw [Stmt.code, track_append, stored, track_taken signs (inits init rfl)]
          exact when_congr (by simp [Stmt.CallsOnly]) _
  | enterIf line condition =>
      have jumps : exe.track (indexed line .goto labels.issued) = Operand.take [.int] :=
        funext fun stack => (track_single ..).trans Option.map_id'
      rw [Stmt.code, track_append, jumps]
      exact track_taken signs sound base stack
  | beginBlock line | endBlock line => rfl
  | leaveIf line =>
      rw [Stmt.code]
      cases labels.pending.back? <;> rfl

theorem stmt_level (signs : exe.Signs ledger) {s : Stmt} (sound : s.Sound ledger) (base : Nat)
    (labels : Labels) :
    exe.Level (s.code base labels) [] := by
  cases s with
  | enterIf line condition =>
      refine level_append.mpr ⟨level_plain (condition.code_plain _ _) [],
        fun middle tracked => ?_⟩
      constructor
      · intro label
        cases label
      · refine fun next applied => ⟨fun _ => ?_, trivial⟩
        -- The condition is all there is on the stack, and the jump takes it.
        have taken := track_taken signs sound base []
        have jumped : Operand.take [Ty.boolean.kind] middle = some next :=
          Option.map_id'.symm.trans applied
        rw [tracked, Option.bind_some, jumped] at taken
        split at taken
        · exact Option.some.inj taken
        · cases taken
  | leaveIf line =>
      rw [Stmt.code]
      cases labels.pending.back? with
      | none => trivial
      | some id =>
          refine ⟨fun _ => rfl, fun _ _ => ⟨fun jump => ?_, trivial⟩⟩
          cases jump
  | expr | declare | beginBlock | endBlock =>
      exact level_plain (Stmt.code_plain base labels rfl rfl) []

theorem stmts_track (signs : exe.Signs ledger) (stmts : List Stmt)
    (sound : ∀ s ∈ stmts, s.Sound ledger) (base : Nat) (labels : Labels) :
    (exe.track (codeOfStmts base labels stmts) [] =
      if ∀ s ∈ stmts, s.CallsOnly then some [] else none) ∧
      exe.Level (codeOfStmts base labels stmts) [] := by
  induction stmts generalizing base labels with
  | nil => exact ⟨rfl, trivial⟩
  | cons s rest ih =>
      rcases List.forall_mem_cons.mp sound with ⟨own, others⟩
      rcases ih others (base + s.constants.length) (labels.after s) with ⟨tracked, level⟩
      have first := stmt_tracks signs own base labels []
      constructor
      · rw [codeOfStmts, track_append, first, when_bind, tracked, when_when]
        exact when_congr List.forall_mem_cons.symm _
      · refine level_append.mpr ⟨stmt_level signs own base labels, fun middle reached => ?_⟩
        rw [first] at reached
        split at reached
        · cases reached
          exact level
        · cases reached

theorem stmts_safe_iff (signs : exe.Signs ledger) {start : List Written}
    (plain : ∀ w ∈ start, w.Plain)
    {args : List Operand} (starts : exe.track start args = some []) (stmts : List Stmt)
    (sound : ∀ s ∈ stmts, s.Sound ledger) (base : Nat) (labels : Labels) :
    exe.SafeFrom (Chunk.of (start ++ codeOfStmts base labels stmts)) args ↔
      ∀ s ∈ stmts, s.CallsOnly := by
  rcases stmts_track signs stmts sound base labels with ⟨tracked, level⟩
  have formed : Formed (start ++ codeOfStmts base labels stmts) :=
    formed_append.mpr ⟨formed_of_plain plain, codeOfStmts_formed base labels stmts⟩
  have whole : exe.Level (start ++ codeOfStmts base labels stmts) args := by
    refine level_append.mpr ⟨level_plain plain args, fun middle reached => ?_⟩
    cases starts.symm.trans reached
    exact level
  rw [safeFrom_iff formed whole, track_append, starts, Option.bind_some, tracked]
  by_cases only : ∀ s ∈ stmts, s.CallsOnly <;> simp [only]

theorem params_track (line : Nat) (params : List Param)
    (sound : ∀ param ∈ params, param.Sound ledger) (stack : List Operand) :
    exe.track (params.flatMap (Param.code line))
      ((params.map fun param => .value param.ty.kind) ++ stack) =
      some stack := by
  induction params with
  | nil => rfl
  | cons param rest ih =>
      rcases List.forall_mem_cons.mp sound with ⟨⟨id, known, _⟩, others⟩
      have own : Param.code line param = indexed line (.store param.ty.kind) id.index := by
        simp [Param.code, known]
      rw [List.flatMap_cons, own, track_append, track_store, List.map_cons, List.cons_append,
        Operand.take_own, Option.bind_some, ih others]

theorem function_safe_iff (signs : exe.Signs ledger) {f : Function} (sound : f.Sound ledger)
    (base : Nat) (labels : Labels) :
    (∀ chunk ∈ (f.compiled base labels).code,
      exe.SafeFrom chunk (Operand.arguments (f.compiled base labels).params)) ↔
      f.CallsOnly := by
  cases host : f.isHost with
  | true =>
      have none : f.stmts = [] := by
        rw [Function.stmts, Option.isNone_iff_eq_none.mp host]
        rfl
      simp [Function.compiled, host, Function.CallsOnly, none]
  | false =>
      have stored : f.stored = f.params := by simp [Function.stored, host]
      have plain : ∀ w ∈ f.stored.reverse.flatMap (Param.code f.line), w.Plain := by
        simp only [List.forall_mem_flatMap]
        exact fun param _ => param.code_plain f.line
      have arguments : Operand.arguments f.paramTypes =
          (f.stored.reverse.map fun param => Operand.value param.ty.kind) ++ [] := by
        simp [Operand.arguments, Function.paramTypes, stored]
      have starts :
        exe.track (f.stored.reverse.flatMap (Param.code f.line)) (Operand.arguments f.paramTypes) =
          some [] := by
        rw [arguments]
        exact params_track f.line _ (fun param member =>
          sound.1 param (List.mem_reverse.mp member)) []
      have own : ∀ chunk, chunk ∈ (f.compiled base labels).code ↔
        chunk = Chunk.of (f.code base labels) := by
        simp [Function.compiled, host, eq_comm]
      simp only [own, forall_eq]
      exact stmts_safe_iff signs plain starts f.stmts sound.2 base labels

end Executable

namespace Lowering

theorem compiledFunctions_forall {P : CompiledFunction → Prop} {Q : Function → Prop}
    (fs : List Function) (one : ∀ f ∈ fs, ∀ base labels, P (f.compiled base labels) ↔ Q f)
    (base : Nat) (labels : Labels) :
    (∀ compiled ∈ compiledFunctions base labels fs, P compiled) ↔ ∀ f ∈ fs, Q f := by
  induction fs generalizing base labels with
  | nil => simp [compiledFunctions]
  | cons f rest ih =>
      rcases List.forall_mem_cons.mp one with ⟨first, others⟩
      rw [compiledFunctions, List.forall_mem_cons, List.forall_mem_cons, first, ih others]

end Lowering

namespace Program
open Executable Lowering

theorem executable_signs {p : Program} {ledger : Ledger} (sound : p.Sound ledger) (labels : Labels)
    (few : p.functions.length ≤ UInt16.size) : (p.executable labels).Signs ledger :=
  ⟨(function_count sound).symm ▸ few, fun _ _ known => executable_function sound labels known⟩

/-- A sound program has a safe executable exactly if it names functions only to call them. -/
theorem Sound.kindSafe_iff {p : Program} {ledger : Ledger} (sound : p.Sound ledger)
    {options : LoweringOptions} {exe : Executable} (lowered : p.lower options = .ok exe) :
    exe.KindSafe ↔ p.CallsOnly := by
  have yields := p.lower_yields options
  rw [lowered] at yields
  rcases yields with ⟨rfl, _, _, statements, functions⟩
  have signs :=
    executable_signs sound (.empty options.labelLimit) (slots_few sound statements functions).2
  have top :
    SafeFrom _ (Chunk.of ([] ++ codeOfStmts 0 (.empty options.labelLimit) p.statements)) [] ↔ _ :=
    stmts_safe_iff signs (List.forall_mem_nil _) rfl p.statements
      (fun s => sound_statement sound) 0 _
  have bodies : ∀ base labels,
    (∀ compiled ∈ compiledFunctions base labels p.functions, ∀ chunk ∈ compiled.code,
      (p.executable (.empty options.labelLimit)).SafeFrom chunk
        (Operand.arguments compiled.params)) ↔ ∀ f ∈ p.functions, f.CallsOnly :=
    compiledFunctions_forall p.functions fun f member base labels =>
      function_safe_iff signs (sound_function sound member) base labels
  constructor
  · rintro ⟨first, others⟩
    exact ⟨top.mp first, (bodies _ _).mp others⟩
  · rintro ⟨first, others⟩
    exact ⟨top.mpr first, (bodies _ _).mpr others⟩

/-- A program that is compiled has a safe executable exactly if no name of a function stands where a
value is taken: along every path through any body each instruction finds operands of its kinds. -/
theorem compile_kindSafe_iff (p : Program) (fresh : p.Fresh) (settings : Settings)
    (exe : Executable) (compiled : (p.compile settings).2 = .ok exe) :
    exe.KindSafe ↔ (p.compile settings).1.CallsOnly := by
  rcases compile_ok compiled with ⟨ended, clean, lowered⟩
  exact (analyze_sound fresh ended clean).kindSafe_iff lowered

theorem halving_kindSafe :
    halving.Fresh ∧ ∃ exe, (halving.compile .default).2 = .ok exe ∧ exe.KindSafe := by
  have fresh : halving.Fresh := by decide
  have succeeds : (halving.compile .default).2.isOk = true := by decide +kernel
  have only : (halving.compile .default).1.CallsOnly := by decide +kernel
  rcases exists_of_isOk succeeds with ⟨exe, compiled⟩
  exact ⟨fresh, exe, compiled, (compile_kindSafe_iff halving fresh .default exe compiled).mpr only⟩

def referencing : Program :=
  ⟨[.function ⟨"f", .int, [], none, 1, none⟩,
    .stmt (.declare 2 ⟨"x", .int, some (.name ⟨2, none⟩ "f" none), none⟩)]⟩

/-- It is compiled, and a reference to the function is stored as an int. -/
theorem referencing_unsafe :
    referencing.Fresh ∧ ∃ exe, (referencing.compile .default).2 = .ok exe ∧
      ¬ exe.KindSafe := by
  have fresh : referencing.Fresh := by decide
  have succeeds : (referencing.compile .default).2.isOk = true := by decide +kernel
  have named : ¬ (referencing.compile .default).1.CallsOnly := by decide +kernel
  rcases exists_of_isOk succeeds with ⟨exe, compiled⟩
  rcases compile_ok compiled with ⟨ended, clean, lowered⟩
  exact ⟨fresh, exe, compiled, mt ((analyze_sound fresh ended clean).kindSafe_iff lowered).mp named⟩

end Program
end StackCompiler
