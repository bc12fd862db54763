import Mathlib.Data.List.Forall2
import StackCompiler.Proofs.Lowering.Masking
import StackCompiler.Proofs.Lowering.Safety
import StackCompiler.Proofs.Machine.Step
import StackCompiler.Proofs.Typing.Masking

/-!
Names, lines and the values of literals do not leak into the code.

Two programs that are the same when masked are compiled alike: both to the same bytes, tables that
differ by the renaming and constants of the same kinds, or both to problems of the same classes, or
both to the same fault. Each of them is compiled as its masked form is, so one comparison with that
form serves for both.
-/
namespace StackCompiler

structure CompiledFunction.Alike (rename : String → String) (f other : CompiledFunction) :
    Prop where
  name : other.name = rename f.name
  returns : other.returns = f.returns
  params : other.params = f.params
  slot : other.slot = f.slot
  code : other.code.map Chunk.bytes = f.code.map Chunk.bytes

/-- Executables that differ in nothing but names, lines and the values of constants. -/
structure Executable.Alike (rename : String → String) (exe other : Executable) : Prop where
  code : other.code.bytes = exe.code.bytes
  constants : other.constants.entries.map Constant.kind = exe.constants.entries.map Constant.kind
  statics : other.statics = exe.statics.map (StaticVariable.renamed rename)
  functions : List.Forall₂ (CompiledFunction.Alike rename) exe.functions other.functions

/-- The same outcome, up to names, lines and the values of constants. -/
inductive SameOutcome (rename : String → String) :
    Except Failure Executable → Except Failure Executable → Prop
  | compiled {exe other : Executable} : exe.Alike rename other →
    SameOutcome rename (.ok exe) (.ok other)
  | rejected {found others : Array Diagnostic} : classes others.toList = classes found.toList →
      SameOutcome rename (.error (.diagnostics found)) (.error (.diagnostics others))
  | failed (cause : Fault) : SameOutcome rename (.error (.fault cause)) (.error (.fault cause))

section
variable {rename : String → String}

theorem masked_bytes {code other : Chunk} (same : code.masked = other.masked) :
    other.bytes = code.bytes :=
  (congrArg Chunk.bytes same).symm

theorem masked_function_alike {f other : CompiledFunction}
    (same : f.masked rename = other.masked id) :
    f.Alike rename other := by
  rcases f with ⟨name, returns, params, slot, code⟩
  rcases other with ⟨otherName, otherReturns, otherParams, otherSlot, otherCode⟩
  simp only [CompiledFunction.masked, id, CompiledFunction.mk.injEq] at same
  rcases same with ⟨rfl, rfl, rfl, rfl, masked⟩
  have bytes := congrArg (Option.map Chunk.bytes) masked
  simp only [Option.map_map] at bytes
  exact ⟨rfl, rfl, rfl, rfl, bytes.symm⟩

theorem masked_executable_alike {exe other : Executable}
    (same : exe.masked rename = other.masked id) :
    exe.Alike rename other := by
  rcases exe with ⟨code, ⟨entries⟩, statics, functions⟩
  rcases other with ⟨otherCode, ⟨otherEntries⟩, otherStatics, otherFunctions⟩
  simp only [Executable.masked, ConstantPool.masked, Executable.mk.injEq,
    ConstantPool.mk.injEq] at same
  rcases same with ⟨codes, constants, tables, compiled⟩
  have kinds : Constant.kind ∘ Constant.masked = Constant.kind :=
    funext fun constant => by cases constant <;> rfl
  have ours := congrArg (Array.map Constant.kind) constants
  rw [Array.map_map, Array.map_map, kinds] at ours
  have unnamed : StaticVariable.renamed id = id := rfl
  rw [unnamed, List.map_id] at tables
  refine ⟨masked_bytes codes, ours.symm, tables.symm, ?_⟩
  have pairs : List.Forall₂ Eq (functions.map (CompiledFunction.masked rename))
      (otherFunctions.map (CompiledFunction.masked id)) := List.forall₂_eq_eq_eq ▸ compiled
  rw [List.forall₂_map_left_iff, List.forall₂_map_right_iff] at pairs
  exact pairs.imp fun _ _ => masked_function_alike

theorem masked_limit {fault other : Fault} (limit : fault.IsLimit)
    (same : fault.masked rename = other.masked id) : other = fault := by
  -- The fault of a limit tells neither a name nor a line.
  cases fault <;> cases other <;> simp_all [Fault.masked, Fault.IsLimit]

/-- What is lowered to the same masked answer comes out alike, if no fault is possible but that of a
limit. -/
theorem lowered_alike {ours theirs : Except Fault Executable}
    (same : concealed rename (Executable.masked rename) ours =
      concealed id (Executable.masked id) theirs)
    (limits : ∀ fault, ours = .error fault → fault.IsLimit) :
    SameOutcome rename (ours.mapError .fault) (theirs.mapError .fault) := by
  cases ours with
  | ok exe =>
      cases theirs with
      | ok other => exact .compiled (masked_executable_alike (Except.ok.inj same))
      | error fault => cases same
  | error fault =>
      cases theirs with
      | ok other => cases same
      | error other =>
          rw [masked_limit (limits fault rfl) (Except.error.inj same)]
          exact .failed fault

end

namespace Program

/-- A program and a disguised one, with other lines and literals and with its names faithfully
renamed, compile alike. -/
theorem compile_alike {rename : String → String} (faithful : Function.Injective rename)
    {p other : Program} (fresh : p.Fresh) (disguised : p.masked rename = other.masked id)
    (settings : Settings) :
    SameOutcome rename (p.compile settings).2 (other.compile settings).2 := by
  rcases analyze_masked faithful p settings.blockLimit with ⟨veiled, analysed, mirrors⟩
  rcases analyze_masked Function.injective_id other settings.blockLimit
    with ⟨others, reanalysed, mirrored⟩
  rw [disguised, reanalysed] at analysed
  injection analysed with nodes states stopped
  cases states
  have problems := mirrored.problems.symm.trans mirrors.problems
  have spotless := classes_isEmpty problems
  rw [Array.isEmpty_toList, Array.isEmpty_toList] at spotless
  simp only [compile, stopped, spotless]
  cases ended : (p.analyze (.empty settings.blockLimit)).stopped with
  | some fault => exact .failed fault
  | none =>
      cases clean : (p.analyze (.empty settings.blockLimit)).state.diagnostics.isEmpty with
      | false => exact .rejected problems
      | true =>
          have sound := analyze_sound fresh ended (Array.isEmpty_iff.mp clean)
          have limits := (lower_sound sound settings.lowering).2
          have ours :=
            lower_masked rename (p.analyze (.empty settings.blockLimit)).node settings.lowering
          have theirs :=
            lower_masked id (other.analyze (.empty settings.blockLimit)).node settings.lowering
          rw [nodes] at theirs
          exact lowered_alike (ours.symm.trans theirs) limits

def quartering : Program :=
  ⟨[.function ⟨"my half", .double, [⟨"my n", .double, none⟩], none, 10, none⟩,
    .stmt (.declare 20 ⟨"my x", .double, some (.int ⟨20, none⟩ 3), none⟩),
    .stmt (.declare 20 ⟨"my n", .int, some (.int ⟨21, none⟩ 5), none⟩),
    .stmt (.enterIf 22 (.binary ⟨22, none⟩ (.compare .greater)
      (.name ⟨23, none⟩ "my x" none) (.int ⟨24, none⟩ 7))),
    .stmt (.expr 25 (.assign ⟨25, none⟩ .plain (.name ⟨25, none⟩ "my x" none)
      (.call ⟨26, none⟩ (.name ⟨26, none⟩ "my half" none)
        [.unary ⟨27, none⟩ .increment (.name ⟨27, none⟩ "my n" none)]))),
    .stmt (.leaveIf 28)]⟩

theorem halving_quartering_alike :
    Function.Injective ("my " ++ ·) ∧ halving.Fresh ∧
      halving.masked ("my " ++ ·) = quartering.masked id ∧
      SameOutcome ("my " ++ ·) (halving.compile .default).2 (quartering.compile .default).2 := by
  have faithful : Function.Injective ("my " ++ ·) := fun first second same => by simpa using same
  have fresh : halving.Fresh := by decide
  have disguised : halving.masked ("my " ++ ·) = quartering.masked id := rfl
  exact ⟨faithful, fresh, disguised, compile_alike faithful fresh disguised .default⟩

end Program
end StackCompiler
