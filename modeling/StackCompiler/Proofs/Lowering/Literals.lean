import StackCompiler.Proofs.Lowering.Chunks
import StackCompiler.Proofs.Machine.Step

/-!
Constants and the instructions that push them.

A literal adds its constant and pushes it in one step, so the operands of the pushes, read through
the bodies in order, count the entries of the pool. Only the target of an assignment is visited
without its own code; in a walk that succeeds it is a name and holds no literal.
-/
namespace StackCompiler

def Instruction.constant? : Instruction → Option (Kind × Nat)
  | ⟨.push kind, index :: _⟩ => some (kind, index.toNat)
  | _ => none

def pushed (code : List Written) : List (Kind × Nat) :=
  (instructionsOf code).filterMap Instruction.constant?

/-- Constants with the kinds of their values, numbered from `base` on. -/
def pooledFrom (base : Nat) (constants : List Constant) : List (Kind × Nat) :=
  (constants.zipIdx base).map fun (constant, index) => (constant.kind, index)

theorem pooledFrom_append (base : Nat) (constants more : List Constant) :
    pooledFrom base (constants ++ more) =
      pooledFrom base constants ++ pooledFrom (base + constants.length) more := by
  rw [pooledFrom, List.zipIdx_append, List.map_append]
  rfl

theorem pooledFrom_indices (constants : List Constant) :
    (pooledFrom 0 constants).map Prod.snd = List.range constants.length := by
  have seconds : (pooledFrom 0 constants).map Prod.snd = (constants.zipIdx 0).map Prod.snd := by
    simp [pooledFrom, Function.comp_def]
  rw [seconds, List.zipIdx_map_snd, List.range_eq_range']

theorem pushed_append (code more : List Written) :
    pushed (code ++ more) = pushed code ++ pushed more := by
  rw [pushed, instructionsOf_append, List.filterMap_append]
  rfl

namespace Lowering

section Quiet
variable (line : Nat)

@[simp] theorem pushed_written (opcode : Opcode) : pushed (written line opcode) = [] := by
  cases opcode <;> rfl

@[simp] theorem pushed_load (kind : Kind) (index : Nat) :
    pushed (indexed line (.load kind) index) = [] := rfl

@[simp] theorem pushed_store (kind : Kind) (index : Nat) :
    pushed (indexed line (.store kind) index) = [] := rfl

@[simp] theorem pushed_chosen (answer : Except Fault Opcode) :
    pushed (chosen line answer) = [] := by
  cases answer with
  | ok opcode => exact pushed_written line opcode
  | error fault => rfl

@[simp] theorem pushed_loaded (answer : Except Fault (Ty × VarId)) :
    pushed (loaded line answer) = [] := by
  cases answer <;> rfl

@[simp] theorem pushed_stored (keep : Bool) (answer : Except Fault (Ty × VarId)) :
    pushed (stored line keep answer) = [] := by
  cases answer with
  | ok found => cases keep <;> rfl
  | error fault => rfl

@[simp] theorem pushed_changed (opcode : Opcode) (answer : Except Fault (Ty × VarId)) :
    pushed (changed line opcode answer) = [] := by
  cases answer with
  | ok found => simp [changed, pushed_append]
  | error fault => rfl

@[simp] theorem pushed_unaryCode (e : Expr) (op : UnaryOp) (operand : Expr) :
    pushed (unaryCode e op operand) = [] := by
  cases op <;> simp [unaryCode]

@[simp] theorem pushed_operatorCode (whole : Nat) (op : AssignOp) (value : Expr) :
    pushed (operatorCode line whole op value) = [] := by
  cases op with
  | plain => rfl
  | compound op => exact pushed_chosen line _

end Quiet

theorem pushed_constant (line : Nat) {kind : Kind} {base : Nat} {constant : Constant}
    (own : constant.kind = kind) (fits : base + [constant].length ≤ UInt16.size) :
    pushed (indexed line (.push kind) base) = pooledFrom base [constant] := by
  have small : (UInt16.ofNat base).toNat = base := UInt16.toNat_ofNat_of_lt' fits
  show [(kind, (UInt16.ofNat base).toNat)] = [(constant.kind, base)]
  rw [small, own]

end Lowering

def Expr.AssignsName : Expr → Prop
  | assign _ _ target _ => target.isName = true
  | _ => True

def Expr.NamesTargets (e : Expr) : Prop := ∀ node ∈ e.nodes, node.AssignsName

def Stmt.NamesTargets (s : Stmt) : Prop := ∀ root ∈ s.root?, root.NamesTargets

theorem Expr.constants_of_isName {e : Expr} (named : e.isName = true) : e.constants = [] := by
  cases e with
  | name note identifier binding => rfl
  | _ => cases named

namespace Lowering

theorem pushed_args (args : List Expr)
    (inner : ∀ arg ∈ args, ∀ base keep, base + arg.constants.length ≤ UInt16.size →
      pushed (arg.code base keep) = pooledFrom base arg.constants)
    (base : Nat) (fits : base + (args.flatMap Expr.constants).length ≤ UInt16.size) :
    pushed (Expr.codeOfArgs base args) = pooledFrom base (args.flatMap Expr.constants) := by
  induction args generalizing base with
  | nil => rfl
  | cons arg rest ih =>
      rcases List.forall_mem_cons.mp inner with ⟨first, others⟩
      rw [List.flatMap_cons, List.length_append] at fits
      rw [Expr.codeOfArgs, List.flatMap_cons, pushed_append, pooledFrom_append,
        first base true (by omega), ih others _ (by omega)]

/-- The code of an expression pushes its literals, one after the other. -/
theorem pushed_code (e : Expr) (named : e.NamesTargets) (base : Nat) (keep : Bool)
    (fits : base + e.constants.length ≤ UInt16.size) :
    pushed (e.code base keep) = pooledFrom base e.constants := by
  induction e generalizing base keep with
  | bool note value | int note value | double note value => exact pushed_constant _ rfl fits
  | name note identifier binding =>
      rcases binding with _ | id | id
      · rfl
      · exact pushed_loaded _ _
      · rfl
  | binary note op left right first second =>
      rcases Expr.forall_nodes_binary.mp named with ⟨⟨lefts, rights⟩, _⟩
      rw [Expr.constants_binary, List.length_append] at fits
      rw [Expr.code, pushed_append, pushed_append, pushed_chosen, List.append_nil,
        Expr.constants_binary, pooledFrom_append, first lefts base true (by omega),
          second rights _ true (by omega)]
  | unary note op operand inner =>
      rcases Expr.forall_nodes_unary.mp named with ⟨operands, _⟩
      rw [Expr.constants_unary] at fits
      rw [Expr.code, pushed_append, pushed_unaryCode, List.append_nil, Expr.constants_unary,
        inner operands base true fits]
  | assign note op target value first second =>
      rcases Expr.forall_nodes_assign.mp named with ⟨⟨values, _⟩, name⟩
      have quiet :
          pushed (if op.isCompound then loaded note.line target.variableTarget else []) = [] := by
        split
        · exact pushed_loaded _ _
        · rfl
      rw [Expr.constants_assign, Expr.constants_of_isName name, List.append_nil] at fits ⊢
      rw [Expr.code, pushed_append, pushed_append, pushed_append, quiet, pushed_operatorCode,
        pushed_stored, List.append_nil, List.append_nil, List.nil_append,
          second values base true fits]
  | call note callee args target inner =>
      rcases Expr.forall_nodes_call.mp named with ⟨⟨passed, called⟩, _⟩
      rw [Expr.constants_call, List.length_append] at fits
      have args :=
        pushed_args args (fun arg member base keep =>
          inner arg member (passed arg member) base keep)
        base (by omega)
      rw [Expr.code, pushed_append, pushed_append, pushed_written, List.append_nil,
        Expr.constants_call, pooledFrom_append, args, target called _ true (by omega)]
  | cast note kind operand inner =>
      rcases Expr.forall_nodes_cast.mp named with ⟨operands, _⟩
      rw [Expr.constants_cast] at fits
      rw [Expr.code, pushed_append, pushed_written, List.append_nil, Expr.constants_cast,
        inner operands base true fits]

theorem pushed_stmt (s : Stmt) (named : s.NamesTargets) (base : Nat) (labels : Labels)
    (fits : base + s.constants.length ≤ UInt16.size) :
    pushed (s.code base labels) = pooledFrom base s.constants := by
  match s with
  | .expr line value =>
      have quiet : pushed (if value.isAssign then [] else written line .pop) = [] := by
        split
        · rfl
        · exact pushed_written line .pop
      rw [Stmt.code, pushed_append, quiet, List.append_nil]
      exact pushed_code value (named value rfl) base false fits
  | .declare line ⟨_, ty, some init, some id⟩ =>
      rw [Stmt.code, pushed_append, pushed_store, List.append_nil]
      exact pushed_code init (named init rfl) base true fits
  | .declare _ ⟨_, _, some init, none⟩ => exact pushed_code init (named init rfl) base true fits
  | .declare _ ⟨_, _, none, _⟩ | .beginBlock _ | .endBlock _ => rfl
  | .enterIf line condition =>
      rw [Stmt.code, pushed_append]
      exact (List.append_nil _).trans (pushed_code condition (named condition rfl) base true fits)
  | .leaveIf line =>
      rw [Stmt.code]
      cases labels.pending.back? <;> rfl

theorem pushed_stmts (stmts : List Stmt) (named : ∀ s ∈ stmts, s.NamesTargets) (base : Nat)
    (labels : Labels) (fits : base + (stmts.flatMap Stmt.constants).length ≤ UInt16.size) :
    pushed (codeOfStmts base labels stmts) = pooledFrom base (stmts.flatMap Stmt.constants) := by
  induction stmts generalizing base labels with
  | nil => rfl
  | cons s rest ih =>
      rcases List.forall_mem_cons.mp named with ⟨first, others⟩
      rw [List.flatMap_cons, List.length_append] at fits
      rw [codeOfStmts, List.flatMap_cons, pushed_append, pooledFrom_append,
        pushed_stmt s first base labels (by omega), ih others _ _ (by omega)]

theorem pushed_params (line : Nat) (params : List Param) :
    pushed (params.flatMap (Param.code line)) = [] := by
  induction params with
  | nil => rfl
  | cons param rest ih =>
      have own : pushed (param.code line) = [] := by
        unfold Param.code
        cases param.id <;> rfl
      rw [List.flatMap_cons, pushed_append, own, ih]
      rfl

/-! What a tree has to be for the generator to get through it. -/

/-- A step that ends without a fault only if `holds`. -/
def Requires {α : Type} (step : Lower α) (holds : Prop) : Prop :=
  ∀ s result t, step s = .ok result t → holds

section
variable {α β : Type} {step : Lower α} {next : α → Lower β} {holds : Prop}

theorem bind_ok {σ : Type} {step : EStateM Fault σ α} {next : α → EStateM Fault σ β}
    {s t : σ} {result : β} (ran : (step >>= next) s = .ok result t) :
    ∃ middle u, step s = .ok middle u ∧ next middle u = .ok result t := by
  simp only [bind, EStateM.bind] at ran
  split at ran
  · rename_i first
    exact ⟨_, _, first, ran⟩
  · cases ran

theorem requires_first (own : Requires step holds) : Requires (step >>= next) holds := by
  intro s result t ran
  rcases bind_ok ran with ⟨middle, u, first, _⟩
  exact own s middle u first

theorem requires_rest (others : ∀ middle, Requires (next middle) holds) :
    Requires (step >>= next) holds := by
  intro s result t ran
  rcases bind_ok ran with ⟨middle, u, _, later⟩
  exact others middle u result t later

end

theorem between_stores {s t : Lowering} (note : Note) (op : AssignOp) (target value : Expr)
    (ran : betweenExpr (.assign note op target value) s = .ok () t) : t.mode = .store := by
  have set : ∀ u, setMode .store u = .ok () t → t.mode = .store := by
    intro u last
    cases last
    rfl
  cases op with
  | plain => exact set s ran
  | compound op =>
      rcases bind_ok ran with ⟨_, _, _, chosen⟩
      rcases bind_ok chosen with ⟨_, _, _, emitted⟩
      rcases bind_ok emitted with ⟨_, u, _, last⟩
      exact set u last

theorem stores_to_name {target : Expr} {s t : Lowering} (storing : s.mode = .store)
    (ran : generator.walkExpr target s = .ok () t) : target.isName = true := by
  rcases s with ⟨emitter, statics, mode, assigns, calls, values⟩
  cases storing
  rcases walk_enters target with ⟨rest, walk⟩
  rw [walk] at ran
  rcases bind_ok ran with ⟨_, _, entered, _⟩
  rw [enter_store] at entered
  by_cases named : target.isName
  · exact named
  · rw [if_neg named] at entered
    cases entered

theorem args_require (args : List Expr)
    (inner : ∀ arg ∈ args, Requires (generator.walkExpr arg) arg.NamesTargets) :
    Requires (generator.walkArgs args) (∀ arg ∈ args, arg.NamesTargets) := by
  induction args with
  | nil => exact fun _ _ _ _ => List.forall_mem_nil _
  | cons arg rest ih =>
      rcases List.forall_mem_cons.mp inner with ⟨first, others⟩
      intro s result t ran
      rw [Visitor.walkArgs_cons] at ran
      have own : arg.NamesTargets := requires_first first s result t ran
      have behind : ∀ arg ∈ rest, arg.NamesTargets :=
        requires_rest (fun _ => ih others) s result t ran
      exact List.forall_mem_cons.mpr ⟨own, behind⟩

theorem expr_requires (e : Expr) : Requires (generator.walkExpr e) e.NamesTargets := by
  induction e with
  | bool | int | double | name => exact fun _ _ _ _ => List.forall_mem_singleton.mpr trivial
  | binary note op left right first second =>
      intro s result t ran
      rw [Visitor.walkExpr_binary] at ran
      have lefts : left.NamesTargets := requires_rest (fun _ => requires_first first) s result t ran
      have rights : right.NamesTargets :=
        requires_rest (fun _ => requires_rest fun _ => requires_rest fun _ => requires_first second)
          s result t ran
      exact Expr.forall_nodes_binary.mpr ⟨⟨lefts, rights⟩, trivial⟩
  | unary note op operand inner =>
      intro s result t ran
      rw [Visitor.walkExpr_unary] at ran
      have operands : operand.NamesTargets :=
        requires_rest (fun _ => requires_first inner) s result t ran
      exact Expr.forall_nodes_unary.mpr ⟨operands, trivial⟩
  | assign note op target value first second =>
      intro s result t ran
      rw [Visitor.walkExpr_assign] at ran
      have values : value.NamesTargets :=
        requires_rest (fun _ => requires_first second) s result t ran
      have targets : target.NamesTargets :=
        requires_rest (fun _ => requires_rest fun _ => requires_rest fun _ => requires_first first)
          s result t ran
      rcases bind_ok ran with ⟨_, _, _, walked⟩
      rcases bind_ok walked with ⟨_, u, _, between⟩
      rcases bind_ok between with ⟨_, v, switched, stored⟩
      rcases bind_ok stored with ⟨_, _, visited, _⟩
      have name : target.isName = true :=
        stores_to_name (between_stores note op target value switched) visited
      exact Expr.forall_nodes_assign.mpr ⟨⟨values, targets⟩, name⟩
  | call note callee args target inner =>
      intro s result t ran
      rw [Visitor.walkExpr_call] at ran
      have passed : ∀ arg ∈ args, arg.NamesTargets :=
        requires_rest (fun _ => requires_first (args_require args inner)) s result t ran
      have called : callee.NamesTargets :=
        requires_rest (fun _ => requires_rest fun _ => requires_first target) s result t ran
      exact Expr.forall_nodes_call.mpr ⟨⟨passed, called⟩, trivial⟩
  | cast note kind operand inner =>
      intro s result t ran
      rw [Visitor.walkExpr_cast] at ran
      have operands : operand.NamesTargets :=
        requires_rest (fun _ => requires_first inner) s result t ran
      exact Expr.forall_nodes_cast.mpr ⟨operands, trivial⟩

theorem stmt_requires (s : Stmt) : Requires (generator.walkStmt s) s.NamesTargets := by
  intro before result after ran
  unfold Visitor.walkStmt at ran
  rcases bind_ok ran with ⟨_, u, _, visited⟩
  intro root held
  rw [Option.mem_def.mp held] at visited
  exact requires_first (expr_requires root) u result after visited

theorem stmts_require (stmts : List Stmt) :
    Requires (generator.walkStmts stmts) (∀ s ∈ stmts, s.NamesTargets) := by
  induction stmts with
  | nil => exact fun _ _ _ _ => List.forall_mem_nil _
  | cons s rest ih =>
      intro before result after ran
      rw [Visitor.walkStmts_cons] at ran
      have own : s.NamesTargets := requires_first (stmt_requires s) before result after ran
      have behind : ∀ s ∈ rest, s.NamesTargets :=
        requires_rest (fun _ => ih) before result after ran
      exact List.forall_mem_cons.mpr ⟨own, behind⟩

section
variable (options : LoweringOptions)

theorem body_requires {steps : Lower Unit} {holds : Prop} (own : Requires steps holds)
    (shared : Shared) :
    Yields (body options shared steps) (fun _ => holds) (fun _ => True) := by
  unfold body
  cases ran : steps (start options shared) with
  | error fault t => trivial
  | ok result t =>
      have held : holds := own _ _ _ ran
      show Yields (if t.emitter.labels.depth = 0 then _ else _) _ _
      split
      · exact held
      · trivial

theorem function_requires (f : Function) (shared : Shared) :
    Yields (function options shared f) (fun _ => ∀ s ∈ f.stmts, s.NamesTargets)
      (fun _ => True) := by
  unfold function
  split
  · trivial
  split
  · rename_i host
    have none : f.stmts = [] := by simp [Function.stmts, host]
    apply yields_bind (slot_yields _ _) (fun _ _ => trivial)
    intro _ _
    rw [none]
    exact List.forall_mem_nil _
  · rename_i stmts provided
    have own : f.stmts = stmts := by simp [Function.stmts, provided]
    rw [own]
    apply yields_bind (body_requires options (requires_rest fun _ => stmts_require stmts) shared)
      (fun _ _ => trivial)
    rintro ⟨code, after⟩ named
    apply yields_bind (slot_yields _ _) (fun _ _ => trivial)
    exact fun _ _ => named

theorem functions_require (fs : List Function) (shared : Shared)
    (compiled : Array CompiledFunction) :
    Yields (fs.foldlM (fun (compiled, shared) f => do
        let (next, shared) ← function options shared f
        return (compiled.push next, shared)) (compiled, shared))
      (fun _ => ∀ f ∈ fs, ∀ s ∈ f.stmts, s.NamesTargets) (fun _ => True) := by
  induction fs generalizing shared compiled with
  | nil => exact List.forall_mem_nil _
  | cons f rest ih =>
      rw [List.foldlM_cons, bind_assoc]
      apply yields_bind (function_requires options f shared) (fun _ _ => trivial)
      rintro ⟨next, after⟩ own
      rw [pure_bind]
      apply yields_weaken (ih after (compiled.push next))
      · exact fun _ others => List.forall_mem_cons.mpr ⟨own, others⟩
      · exact fun _ _ => trivial

/-- If code is generated for a program, every assignment in it is to a name. -/
theorem lower_requires (p : Program) :
    Yields (p.lower options) (fun _ => (∀ s ∈ p.statements, s.NamesTargets) ∧
      ∀ f ∈ p.functions, ∀ s ∈ f.stmts, s.NamesTargets) (fun _ => True) := by
  unfold Program.lower
  apply yields_bind (body_requires options (stmts_require p.statements) _) (fun _ _ => trivial)
  rintro ⟨code, after⟩ statements
  apply yields_bind (functions_require options p.functions after #[]) (fun _ _ => trivial)
  rintro ⟨compiled, shared⟩ functions
  exact ⟨statements, functions⟩

end

theorem pushed_function (f : Function) (named : ∀ s ∈ f.stmts, s.NamesTargets) (base : Nat)
    (labels : Labels) (fits : base + f.constants.length ≤ UInt16.size) :
    pushed (f.code base labels) = pooledFrom base f.constants := by
  rw [Function.code, pushed_append, pushed_params, List.nil_append]
  exact pushed_stmts f.stmts named base labels fits

theorem pushed_functions (fs : List Function)
    (named : ∀ f ∈ fs, ∀ s ∈ f.stmts, s.NamesTargets) (base : Nat)
    (labels : Labels) (fits : base + (fs.flatMap Function.constants).length ≤ UInt16.size) :
    pushed (codesOf base labels fs).flatten = pooledFrom base (fs.flatMap Function.constants) := by
  induction fs generalizing base labels with
  | nil => rfl
  | cons f rest ih =>
      rcases List.forall_mem_cons.mp named with ⟨first, others⟩
      rw [List.flatMap_cons, List.length_append] at fits
      have own : pushed (if f.isHost then [] else [f.code base labels]).flatten =
        pooledFrom base f.constants := by
        cases host : f.isHost with
        | true =>
            have none : f.constants = [] := by
              have bodiless : f.body = Option.none := by simpa [Function.isHost] using host
              simp [Function.constants, Function.stmts, bodiless]
            rw [none]
            rfl
        | false =>
            rw [← pushed_function f first base labels (by omega)]
            exact congrArg pushed (List.append_nil _)
      rw [codesOf, List.flatten_append, List.flatMap_cons, pushed_append, pooledFrom_append, own,
        ih others _ _ (by omega)]

end Lowering

namespace Program
open Lowering

theorem pushed_codes (p : Program) (labels : Labels)
    (statements : ∀ s ∈ p.statements, s.NamesTargets)
    (functions : ∀ f ∈ p.functions, ∀ s ∈ f.stmts, s.NamesTargets)
    (fits : p.constants.length ≤ UInt16.size) :
    pushed (p.codes labels).flatten = pooledFrom 0 p.constants := by
  rw [constants_eq, List.length_append] at fits
  rw [codes, List.flatten_cons, pushed_append, constants_eq, pooledFrom_append,
    pushed_stmts p.statements statements 0 labels (by omega),
    pushed_functions p.functions functions _ _ (by omega), Nat.zero_add]

/-- The pool of an executable holds the literals, and the pushes in its code go through the pool
from its start to its end. -/
structure OwnsConstants (exe : Executable) (literals : List Constant)
    (pushes : List (Kind × Nat)) : Prop where
  /-- Each entry of the pool is pushed once, in the order of the pool. -/
  indices : pushes.map Prod.snd = List.range exe.constants.size
  /-- An entry is pushed by the instruction of its kind. -/
  kinds : ∀ push ∈ pushes, ∃ constant, exe.constants.get? push.2 = some constant ∧
    constant.kind = push.1
  entries : exe.constants.entries.toList = literals

/-- Every literal of a program owns one constant, whatever the tree and its annotations are. The
literals are those of the tree in visiting order, and the pushes are read through the top level and
the functions in order. -/
theorem lower_literals (p : Program) (options : LoweringOptions) (exe : Executable)
    (lowered : p.lower options = .ok exe) :
    ∃ streams : List (List Placed), (exe.bodies.map Prod.snd).map Chunk.instructions =
      streams.map .ok ∧
      OwnsConstants exe p.constants (streams.flatten.filterMap fun placed =>
        placed.instruction.constant?) := by
  have yields := p.lower_yields options
  have targets := lower_requires options p
  rw [lowered] at yields targets
  rcases yields with ⟨rfl, fits, _⟩
  have read := filterMap_streams Instruction.constant? (p.codes (.empty options.labelLimit))
  rw [← pushed, p.pushed_codes _ targets.1 targets.2 fits] at read
  refine ⟨(p.codes (.empty options.labelLimit)).map streamOf, p.chunks_decode _, ?_⟩
  rw [read]
  constructor
  · rw [pooledFrom_indices]
    simp [executable, ConstantPool.size]
  · rintro _ member
    rcases List.mem_map.mp member with ⟨⟨constant, index⟩, numbering, rfl⟩
    have here : p.constants[index]? = some constant := List.mem_zipIdx_iff_getElem?.mp numbering
    exact ⟨constant, by simpa [executable, ConstantPool.get?] using here, rfl⟩
  · rfl

def literals : Program :=
  ⟨[.stmt (.declare 1 ⟨"x", .double, some (.double ⟨1, some .double⟩ ⟨0⟩), some ⟨0⟩⟩),
    .function ⟨"f", .int, [], some [.expr 3 (.bool ⟨3, none⟩ true)], 2, some ⟨0⟩⟩,
    .stmt (.expr 5 (.binary ⟨5, some .boolean⟩ (.logic .and) (.bool ⟨5, none⟩ false)
      (.int ⟨5, none⟩ 7)))]⟩

theorem literals_owned :
    ∃ (exe : Executable) (streams : List (List Placed)), literals.lower ⟨0, 10, 1⟩ = .ok exe ∧
      (exe.bodies.map Prod.snd).map Chunk.instructions = streams.map .ok ∧
      OwnsConstants exe [.double ⟨0⟩, .int 0, .int 7, .int 1]
        (streams.flatten.filterMap fun placed => placed.instruction.constant?) := by
  have succeeds : (literals.lower ⟨0, 10, 1⟩).isOk = true := by decide +kernel
  rcases exists_of_isOk succeeds with ⟨exe, ran⟩
  rcases lower_literals literals ⟨0, 10, 1⟩ exe ran with ⟨streams, decoded, owned⟩
  exact ⟨exe, streams, ran, decoded, owned⟩

end Program
end StackCompiler
