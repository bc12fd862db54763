import StackCompiler.Proofs.Machine.Statements
import Mathlib.Data.List.Forall2
import Mathlib.Data.List.Nodup

/-!
The bodies of an executable do what the program says.

A body of code starts on the arguments of its function, the last one on top, and ends at the end of
its chunk with these taken from the stack. In between it has done what direct evaluation of the
statements does, for every choice of what operators, conversions and calls do.
-/
namespace StackCompiler

variable {Bases : Type}

namespace Statics

theorem set_comm (statics : Statics) {id other : VarId} (apart : id ≠ other)
    (value second : Value) :
    (statics.set id value).set other second = (statics.set other second).set id value := by
  funext place
  simp only [set]
  split
  · rename_i same
    subst same
    rw [if_neg apart.symm]
  · rfl

end Statics

theorem bindParams_set (params : List Param) (args : List Value) (statics : Statics) (id : VarId)
    (value : Value) (apart : id ∉ params.flatMap fun param => param.id.toList) :
    bindParams params args (statics.set id value) =
      (bindParams params args statics).map (·.set id value) := by
  induction params generalizing args statics with
  | nil => cases args <;> rfl
  | cons param rest ih =>
      cases args with
      | nil => rfl
      | cons arg args =>
          simp only [List.flatMap_cons, List.mem_append, not_or] at apart
          cases known : param.id with
          | none => simp [bindParams, known]
          | some own =>
              have different : id ≠ own := by simpa [known] using apart.1
              simp only [bindParams, known, Option.bind_eq_bind, Option.bind_some]
              rw [Statics.set_comm _ different, ih _ _ apart.2]

namespace Machine
open Lowering

variable (vm : Operations Bases) {exe : Executable} {ledger : Ledger}

/-- The stores of the parameters, the last one first, bind them to the arguments on the stack. -/
theorem runs_params (fits : exe.Fits ledger) (line : Nat) (params : List Param)
    (sound : ∀ param ∈ params, param.Sound ledger)
    (distinct : (params.flatMap fun param => param.id.toList).Nodup) (args : List Value)
    (count : args.length = params.length) (statics : Statics) :
    ∃ bound, bindParams params args statics = some bound ∧
      ∀ stack bases, Runs vm exe (params.reverse.flatMap (Param.code line))
        ⟨args.reverse ++ stack, ⟨statics, bases⟩⟩ ⟨stack, ⟨bound, bases⟩⟩ := by
  induction params generalizing args with
  | nil =>
      obtain rfl := List.eq_nil_of_length_eq_zero count
      exact ⟨statics, rfl, fun stack bases => rfl⟩
  | cons param rest ih =>
      obtain ⟨arg, args, rfl⟩ := List.exists_cons_of_length_eq_add_one count
      obtain ⟨⟨id, known, below⟩, others⟩ := List.forall_mem_cons.mp sound
      rw [List.flatMap_cons, known, Option.toList_some, List.singleton_append, List.nodup_cons]
        at distinct
      obtain ⟨bound, binds, runs⟩ := ih others distinct.2 args (Nat.succ.inj count)
      -- The first parameter is stored last, behind the others that lie above it.
      refine ⟨bound.set id arg, ?_, fun stack bases => ?_⟩
      · simp [bindParams, known, bindParams_set rest args statics id arg distinct.1, binds]
      · have own : Param.code line param = indexed line (.store param.ty.kind) id.index := by
          simp [Param.code, known]
        simp only [List.reverse_cons, List.flatMap_append, List.flatMap_singleton, own,
          List.append_assoc]
        exact runs_append (runs (arg :: stack) bases)
          (runs_store line stack ⟨bound, bases⟩ param.ty.kind arg
          (Nat.lt_of_lt_of_le below fits.vars))

/-- The chunk takes the arguments from the stack, has the given effect, and stops at its end. -/
def Implements (exe : Executable) (chunk : Chunk) (args : List Value) (memory : Memory Bases)
    (effect : Option (Memory Bases)) : Prop :=
  ∃ final, effect = some final ∧
    ∀ stack, Completes vm exe chunk ⟨args.reverse ++ stack, memory⟩ ⟨stack, final⟩

theorem implements_stmts (fits : exe.Fits ledger) {start : List Written}
    (plain : ∀ w ∈ start, w.Plain)
    {stmts : List Stmt} (sound : ∀ s ∈ stmts, s.Sound ledger) {base : Nat} {labels : Labels}
    (idle : labels.depth = 0) (pools : exe.Pools base (stmts.flatMap Stmt.constants))
    (allowed : labels.AllowsBody stmts) {args : List Value} {memory middle : Memory Bases}
    (starts : ∀ stack, Runs vm exe start ⟨args.reverse ++ stack, memory⟩ ⟨stack, middle⟩) :
    Implements vm exe (Chunk.of (start ++ codeOfStmts base labels stmts)) args memory
      (evalStmts vm stmts 0 middle) := by
  have formed : Formed (start ++ codeOfStmts base labels stmts) :=
    formed_append.mpr ⟨formed_of_plain plain, codeOfStmts_formed base labels stmts⟩
  have distinct : (landed (start ++ codeOfStmts base labels stmts)).Nodup := by
    rw [landed_append, landed_of_plain plain, List.nil_append]
    exact (landed_distinct base stmts (Labels.distinct_idle idle) allowed.1).1
  obtain ⟨final, offset, known, stands, reaches⟩ :=
    stmts_reach vm fits formed distinct stmts sound base labels
    start 0 middle pools rfl allowed (Nat.zero_le _)
  cases stands
  refine ⟨final, known, fun stack => ?_⟩
  have first : Reaches vm exe (Chunk.of ([] ++ start ++ codeOfStmts base labels stmts)) _ _ :=
    reaches_line (List.forall_mem_nil _) (starts stack)
  unfold Completes
  rw [Chunk.of_size formed]
  exact ⟨first.trans (reaches stack), Chunk.of_size formed ▸ step_end vm exe _ _⟩

theorem implements_function (fits : exe.Fits ledger) {f : Function} (sound : f.Sound ledger)
    (distinct : f.declared.Nodup) {base : Nat} {labels : Labels} (idle : labels.depth = 0)
    (pools : exe.Pools base f.constants) (allowed : labels.AllowsBody f.stmts) (args : List Value)
    (count : args.length = f.stored.length) (memory : Memory Bases) :
    Implements vm exe (Chunk.of (f.code base labels)) args memory (f.eval vm args memory) := by
  obtain ⟨bound, binds, stores⟩ := runs_params vm fits f.line f.stored sound.1
    (List.nodup_append.mp distinct).1 args count memory.statics
  have effect : f.eval vm args memory = evalStmts vm f.stmts 0 ⟨bound, memory.bases⟩ := by
    simp [Function.eval, binds]
  have plain : ∀ w ∈ f.stored.reverse.flatMap (Param.code f.line), w.Plain := by
    simp only [List.forall_mem_flatMap]
    exact fun param _ => param.code_plain f.line
  rw [effect]
  exact implements_stmts vm fits plain sound.2 idle pools allowed fun stack =>
    stores stack memory.bases

/-- A function has code exactly if it has a body, and the code does with arguments on the stack what
the body does with its parameters bound to them. -/
structure Compiles (exe : Executable) (f : Function) (compiled : CompiledFunction) : Prop where
  host : compiled.code = none ↔ f.isHost
  body :
    ∀ chunk ∈ compiled.code, ∀ args : List Value, args.length = compiled.params.length →
    ∀ memory, Implements vm exe chunk args memory (f.eval vm args memory)

theorem functions_compile (fits : exe.Fits ledger) (fs : List Function)
    (sound : ∀ f ∈ fs, f.Sound ledger)
    (distinct : ∀ f ∈ fs, f.declared.Nodup) (base : Nat) (labels : Labels)
    (idle : labels.depth = 0) (pools : exe.Pools base (fs.flatMap Function.constants))
    (allowed : labels.AllowsBodies (fs.map Function.stmts)) :
    List.Forall₂ (Compiles vm exe) fs (compiledFunctions base labels fs) := by
  induction fs generalizing base labels with
  | nil => exact .nil
  | cons f rest ih =>
      obtain ⟨own, others⟩ := List.forall_mem_cons.mp sound
      obtain ⟨ids, more⟩ := List.forall_mem_cons.mp distinct
      rw [List.flatMap_cons, Executable.pools_append] at pools
      refine .cons ⟨?_, ?_⟩ (ih others more _ _ allowed.1.2 pools.2 allowed.2)
      · simp [Function.compiled]
      · intro chunk found args count memory
        have provided : f.isHost = false ∧ chunk = Chunk.of (f.code base labels) := by
          cases host : f.isHost <;> simp [Function.compiled, host] at found
          exact ⟨rfl, found.symm⟩
        obtain ⟨bodied, rfl⟩ := provided
        refine implements_function vm fits own ids idle pools.1 allowed.1 args ?_ memory
        simpa [Function.compiled, Function.paramTypes, Function.stored, bodied] using count

end Machine

namespace Program
open Machine

/-- The executable of a sound program fits the ledger it was analysed with. -/
theorem executable_fits {p : Program} {ledger : Ledger} (sound : p.Sound ledger) (labels : Labels)
    (literals : p.constants.length ≤ UInt16.size) (vars : ledger.vars.size ≤ UInt16.size)
    (functions : p.functions.length ≤ UInt16.size) : (p.executable labels).Fits ledger := by
  refine ⟨by simpa [executable, ConstantPool.size] using literals, vars,
    (function_count sound).symm ▸ functions, fun id entry known => ?_⟩
  obtain ⟨f, found, params, _⟩ := executable_function sound labels known
  exact ⟨f, found, congrArg List.length params⟩

theorem declared_nodup {p : Program} {ledger : Ledger} (sound : p.Sound ledger) {f : Function}
    (member : f ∈ p.functions) : f.declared.Nodup := by
  have all : (p.items.flatMap Item.declared).Nodup :=
    List.Nodup.of_map _ (sound.ids ▸ List.nodup_range)
  exact (List.nodup_flatMap.mp all).1 (.function f) (mem_functions.mp member)

theorem executable_pools (p : Program) (labels : Labels) :
    (p.executable labels).Pools 0 p.constants := by
  intro n constant found
  simpa [executable, ConstantPool.get?] using found

/-- For a fresh program in which analysis found nothing wrong, every body of its executable does
what direct evaluation of the analysed statements does, whatever the stack and the statics hold: the
machine stops at the end of the body with the statics of the evaluation, and on the stack only the
arguments are gone. -/
theorem lower_preserves_evaluation (p : Program) (fresh : p.Fresh) (blockLimit : Nat)
    (options : LoweringOptions) (ended : (p.analyze (.empty blockLimit)).stopped = none)
    (clean : (p.analyze (.empty blockLimit)).state.diagnostics = #[]) (exe : Executable)
    (lowered : (p.analyze (.empty blockLimit)).node.lower options = .ok exe)
    (vm : Operations Bases) :
    (∀ memory, Implements vm exe exe.code [] memory
      (evalStmts vm (p.analyze (.empty blockLimit)).node.statements 0 memory)) ∧
      List.Forall₂ (Compiles vm exe) (p.analyze (.empty blockLimit)).node.functions
        exe.functions := by
  have sound := analyze_sound fresh ended clean
  generalize (p.analyze (.empty blockLimit)).node = analysed at *
  generalize (p.analyze (.empty blockLimit)).state.ledger = ledger at *
  have yields := analysed.lower_yields options
  rw [lowered] at yields
  obtain ⟨rfl, literals, ⟨top, bodies⟩, statements, functions⟩ := yields
  obtain ⟨few, slots⟩ := slots_few sound statements functions
  have fits := executable_fits sound (.empty options.labelLimit) literals few slots
  have pools := analysed.executable_pools (.empty options.labelLimit)
  rw [constants_eq, Executable.pools_append, Nat.zero_add] at pools
  constructor
  · intro memory
    have plain : ∀ w ∈ ([] : List Written), w.Plain := List.forall_mem_nil _
    have starts : ∀ stack, Runs vm (analysed.executable (.empty options.labelLimit)) []
        ⟨([] : List Value).reverse ++ stack, memory⟩ ⟨stack, memory⟩ := fun stack => rfl
    exact implements_stmts vm fits plain (fun s => sound_statement sound) rfl pools.1 top starts
  · exact functions_compile vm fits _ (fun f => sound_function sound)
      (fun f => declared_nodup sound) _ _ top.2 pools.2 bodies

theorem halving_preserved :
    ∃ exe, (halving.analyze (.empty 0)).node.lower .default = .ok exe ∧ exe.code.size = 45 ∧
      ∀ (vm : Operations Unit) (memory : Memory Unit), Implements vm exe exe.code [] memory
        (evalStmts vm (halving.analyze (.empty 0)).node.statements 0 memory) := by
  have fresh : halving.Fresh := by decide
  have ended : (halving.analyze (.empty 0)).stopped = none := rfl
  have clean : (halving.analyze (.empty 0)).state.diagnostics = #[] := rfl
  have size :
      ((halving.analyze (.empty 0)).node.lower .default).toOption.map (·.code.size) = some 45 := by
    decide +kernel
  cases lowered : (halving.analyze (.empty 0)).node.lower .default with
  | error fault =>
      rw [lowered] at size
      cases size
  | ok exe =>
      rw [lowered] at size
      exact ⟨exe, rfl, Option.some.inj size, fun vm =>
        (lower_preserves_evaluation halving fresh 0 .default ended clean exe lowered vm).1⟩

end Program
end StackCompiler
