import StackCompiler.Proofs.Lowering.Brackets

/-!
The chunks of an executable as the code of its bodies.

What is said of the instructions of an executable, chunk by chunk, is said of the code of the top
level and of the functions that have a body.
-/
namespace StackCompiler

namespace Lowering

def codesOf (base : Nat) (labels : Labels) : List Function → List (List Written)
  | [] => []
  | f :: rest => (if f.isHost then [] else [f.code base labels]) ++
      codesOf (base + f.constants.length) (labels.afterAll f.stmts) rest

theorem chunks_codesOf (base : Nat) (labels : Labels) (fs : List Function) :
    (compiledFunctions base labels fs).filterMap CompiledFunction.code =
      (codesOf base labels fs).map Chunk.of := by
  induction fs generalizing base labels with
  | nil => rfl
  | cons f rest ih =>
      rw [compiledFunctions, codesOf, List.map_append, ← ih]
      cases host : f.isHost with
      | true => exact List.filterMap_cons_none (by simp [Function.compiled, host])
      | false => exact List.filterMap_cons_some (by simp [Function.compiled, host])

theorem function_formed (f : Function) (base : Nat) (labels : Labels) :
    Formed (f.code base labels) := by
  apply formed_append.mpr
  constructor
  · apply formed_of_plain
    simp only [List.forall_mem_flatMap]
    exact fun param _ => param.code_plain f.line
  · exact codeOfStmts_formed base labels f.stmts

theorem forall_codesOf {P : List Written → Prop} (fs : List Function)
    (own : ∀ f ∈ fs, ∀ base labels, P (f.code base labels)) (base : Nat) (labels : Labels) :
    ∀ code ∈ codesOf base labels fs, P code := by
  induction fs generalizing base labels with
  | nil => exact List.forall_mem_nil _
  | cons f rest ih =>
      rcases List.forall_mem_cons.mp own with ⟨first, others⟩
      rw [codesOf, List.forall_mem_append]
      constructor
      · split
        · exact List.forall_mem_nil _
        · exact List.forall_mem_singleton.mpr (first base labels)
      · exact ih others _ _

end Lowering

namespace Program
open Lowering

def codes (p : Program) (labels : Labels) : List (List Written) :=
  codeOfStmts 0 labels p.statements ::
    codesOf (p.statements.flatMap Stmt.constants).length (labels.afterAll p.statements) p.functions

theorem executable_chunks (p : Program) (labels : Labels) :
    (p.executable labels).bodies.map Prod.snd = (p.codes labels).map Chunk.of := by
  rw [codes, List.map_cons, ← chunks_codesOf]
  simp [Executable.bodies, executable, List.map_filterMap, Function.comp_def]

theorem forall_codes {P : List Written → Prop} (p : Program) (labels : Labels)
    (top : P (codeOfStmts 0 labels p.statements))
    (functions : ∀ f ∈ p.functions, ∀ base labels, P (f.code base labels)) :
    ∀ code ∈ p.codes labels, P code :=
  List.forall_mem_cons.mpr ⟨top, forall_codesOf p.functions functions _ _⟩

theorem codes_formed (p : Program) (labels : Labels) : ∀ code ∈ p.codes labels, Formed code :=
  p.forall_codes labels (codeOfStmts_formed 0 labels p.statements) fun f _ => function_formed f

end Program

/-- The chunks of a program decode to the streams of its code. -/
theorem Program.chunks_decode (p : Program) (labels : Labels) :
    ((p.executable labels).bodies.map Prod.snd).map Chunk.instructions =
      ((p.codes labels).map streamOf).map .ok := by
  rw [p.executable_chunks labels, List.map_map, List.map_map]
  apply List.map_congr_left
  exact fun code member => instructions_of (p.codes_formed labels code member)

theorem filterMap_streams {β : Type} (part : Instruction → Option β) (codes : List (List Written)) :
    (codes.map streamOf).flatten.filterMap (fun p => part p.instruction) =
      (instructionsOf codes.flatten).filterMap part := by
  induction codes with
  | nil => rfl
  | cons code rest ih =>
      rw [List.map_cons, List.flatten_cons, List.flatten_cons, List.filterMap_append,
        instructionsOf_append, List.filterMap_append, filterMap_streamOf, ih]

end StackCompiler
