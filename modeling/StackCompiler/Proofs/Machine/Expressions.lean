import StackCompiler.Proofs.Lowering.Safety
import StackCompiler.Proofs.Machine.Evaluation
import StackCompiler.Proofs.Machine.Line

/-!
The code of an expression computes its value.

The value of a sound expression is there, and its code leaves exactly this value on the stack; only
the code of an assignment nobody waits for leaves nothing. What the stack held before stays below.
-/
namespace StackCompiler

/-- An executable fits a ledger: every index fits an operand, and functions take the parameters that
the ledger knows. -/
structure Executable.Fits (exe : Executable) (ledger : Ledger) : Prop where
  literals : exe.constants.size ≤ UInt16.size
  vars : ledger.vars.size ≤ UInt16.size
  functions : ledger.functions.size ≤ UInt16.size
  params : ∀ id entry, ledger.functionAt? id = some entry →
    ∃ f, exe.functions[id.index]? = some f ∧ f.params.length = entry.params.length

def Executable.Pools (exe : Executable) (base : Nat) (constants : List Constant) : Prop :=
  ∀ n constant, constants[n]? = some constant → exe.constants.get? (base + n) = some constant

theorem Executable.pools_append {exe : Executable} {base : Nat} {constants more : List Constant} :
    exe.Pools base (constants ++ more) ↔
      exe.Pools base constants ∧ exe.Pools (base + constants.length) more := by
  constructor
  · refine fun pools => ⟨fun n constant found => ?_, fun n constant found => ?_⟩
    · obtain ⟨below, _⟩ := List.getElem?_eq_some_iff.mp found
      exact pools n constant ((List.getElem?_append_left below).trans found)
    · have place : (constants ++ more)[constants.length + n]? = some constant := by
        rw [List.getElem?_append_right (Nat.le_add_right _ _), Nat.add_sub_cancel_left, found]
      rw [Nat.add_assoc]
      exact pools _ constant place
  · rintro ⟨first, second⟩ n constant found
    rcases Nat.lt_or_ge n constants.length with below | behind
    · rw [List.getElem?_append_left below] at found
      exact first n constant found
    · rw [List.getElem?_append_right behind] at found
      have place := second _ constant found
      rwa [Nat.add_assoc, Nat.add_sub_cancel' behind] at place

theorem Executable.pools_head {exe : Executable} {base : Nat} {constant : Constant}
    (pools : exe.Pools base [constant]) : exe.constants.get? base = some constant :=
  pools 0 constant rfl

namespace Statics

@[simp] theorem set_same (statics : Statics) (id : VarId) (value : Value) :
    statics.set id value id = value := by
  simp [set]

end Statics

namespace Machine
open Lowering
variable {Bases : Type} {vm : Operations Bases} {exe : Executable} {ledger : Ledger} {base : Nat}

section
variable (line : Nat) (stack : List Value) (memory : Memory Bases)

theorem runs_push (fits : exe.Fits ledger) {constant : Constant} {kind : Kind}
    (pools : exe.Pools base [constant]) (own : constant.kind = kind) :
    Runs vm exe (indexed line (.push kind) base) ⟨stack, memory⟩
      ⟨constant.value :: stack, memory⟩ := by
  have found := Executable.pools_head pools
  obtain ⟨below, _⟩ := Array.getElem?_eq_some_iff.mp found
  apply runs_indexed
  simp only [execute, UInt16.toNat_ofNat_of_lt' (Nat.lt_of_lt_of_le below fits.literals), found,
    Option.bind_some, own, ↓reduceIte]
  rfl

theorem runs_load (kind : Kind) {id : VarId} (below : id.index < UInt16.size) :
    Runs vm exe (indexed line (.load kind) id.index) ⟨stack, memory⟩
      ⟨memory.statics id :: stack, memory⟩ := by
  apply runs_indexed
  simp only [execute, UInt16.toNat_ofNat_of_lt' below]
  rfl

theorem runs_store (kind : Kind) {id : VarId} (value : Value) (below : id.index < UInt16.size) :
    Runs vm exe (indexed line (.store kind) id.index) ⟨value :: stack, memory⟩
      ⟨stack, ⟨memory.statics.set id value, memory.bases⟩⟩ := by
  apply runs_indexed
  simp only [execute, UInt16.toNat_ofNat_of_lt' below]
  rfl

theorem runs_function {id : FunId} (below : id.index < UInt16.size) :
    Runs vm exe (indexed line .pushFunction id.index) ⟨stack, memory⟩
      ⟨.function id :: stack, memory⟩ := by
  apply runs_indexed
  simp only [execute, UInt16.toNat_ofNat_of_lt' below]
  rfl

theorem runs_binary (op : BinaryOp) (kind : Kind) (left right : Value) :
    Runs vm exe (written line (op.opcodeAt kind)) ⟨right :: left :: stack, memory⟩
      ⟨vm.binary op kind left right :: stack, memory⟩ := by
  apply runs_written
  cases op <;> rfl

theorem runs_stored (keep : Bool) (ty : Ty) {id : VarId} (value : Value)
    (below : id.index < UInt16.size) :
    Runs vm exe (stored line keep (.ok (ty, id))) ⟨value :: stack, memory⟩
      ⟨if keep then value :: stack else stack, ⟨memory.statics.set id value, memory.bases⟩⟩ := by
  apply runs_append (runs_store line stack memory ty.kind value below)
  cases keep with
  | false => rfl
  | true =>
      have same : (memory.statics.set id value) id = value := Statics.set_same ..
      have loaded : Runs vm exe _ _ _ := runs_load line stack
        ⟨memory.statics.set id value, memory.bases⟩ ty.kind below
      simp only [same] at loaded
      exact loaded

theorem runs_changed (change : Value → Value) {opcode : Opcode} (ty : Ty) {id : VarId}
    (value : Value) (below : id.index < UInt16.size)
    (applied : ∀ s : State Bases, execute vm exe ⟨opcode, []⟩ s = s.mapTop change) :
    Runs vm exe (changed line opcode (.ok (ty, id))) ⟨value :: stack, memory⟩
      ⟨change value :: stack, ⟨memory.statics.set id (change value), memory.bases⟩⟩ := by
  have parts : changed line opcode (.ok (ty, id)) =
      written line opcode ++ stored line true (.ok (.int, id)) := by
    simp [changed, stored, Ty.kind]
  rw [parts]
  exact runs_append (runs_written line (applied _))
    (runs_stored line stack memory true .int (change value) below)

theorem runs_invoke (fits : exe.Fits ledger) {id : FunId} {entry : FunctionEntry}
    (known : ledger.functionAt? id = some entry) {args : List Value}
    (count : args.length = entry.params.length) :
    Runs vm exe (written line .invoke) ⟨.function id :: (args.reverse ++ stack), memory⟩
      ⟨(vm.call id args memory.statics).1 :: stack,
        ⟨(vm.call id args memory.statics).2, memory.bases⟩⟩ := by
  obtain ⟨f, found, params⟩ := fits.params id entry known
  have same : args.reverse.length = f.params.length := by rw [List.length_reverse, count, params]
  apply runs_written
  simp [execute, invoke, found, ← same]

end

/-- An expression has a value, and its code computes it. -/
def Computes (vm : Operations Bases) (exe : Executable) (e : Expr) : Prop :=
  ∀ base statics, exe.Pools base e.constants →
    ∃ value after, e.eval vm statics = some (value, after) ∧
      ∀ keep stack bases, Runs vm exe (e.code base keep) ⟨stack, ⟨statics, bases⟩⟩
        ⟨if keep || !e.isAssign then value :: stack else stack, ⟨after, bases⟩⟩

theorem computes_value {e : Expr} (computes : Computes vm exe e) (statics : Statics)
    (pools : exe.Pools base e.constants) :
    ∃ value after, e.eval vm statics = some (value, after) ∧
      ∀ stack bases, Runs vm exe (e.code base true) ⟨stack, ⟨statics, bases⟩⟩
        ⟨value :: stack, ⟨after, bases⟩⟩ := by
  obtain ⟨value, after, known, runs⟩ := computes base statics pools
  exact ⟨value, after, known, runs true⟩

/-- Of the expressions that are no assignments no code asks whether the value is kept. -/
theorem computes_of_value {e : Expr} (plain : e.isAssign = false)
    (computes : ∀ base keep statics, exe.Pools base e.constants →
      ∃ value after, e.eval vm statics = some (value, after) ∧
        ∀ stack bases, Runs vm exe (e.code base keep) ⟨stack, ⟨statics, bases⟩⟩
          ⟨value :: stack, ⟨after, bases⟩⟩) : Computes vm exe e := by
  intro base statics pools
  obtain ⟨value, after, known, _⟩ := computes base true statics pools
  refine ⟨value, after, known, fun keep stack bases => ?_⟩
  obtain ⟨_, _, same, runs⟩ := computes base keep statics pools
  cases known.symm.trans same
  simpa [plain] using runs stack bases

theorem computes_args (args : List Expr) (computes : ∀ arg ∈ args, Computes vm exe arg)
    (statics : Statics) (pools : exe.Pools base (args.flatMap Expr.constants)) :
    ∃ values after, Expr.evalArgs vm args statics = some (values, after) ∧
      values.length = args.length ∧
      ∀ stack bases, Runs vm exe (Expr.codeOfArgs base args) ⟨stack, ⟨statics, bases⟩⟩
        ⟨values.reverse ++ stack, ⟨after, bases⟩⟩ := by
  induction args generalizing base statics with
  | nil => exact ⟨[], statics, rfl, rfl, fun stack bases => rfl⟩
  | cons arg rest ih =>
      obtain ⟨first, others⟩ := List.forall_mem_cons.mp computes
      rw [List.flatMap_cons, Executable.pools_append] at pools
      obtain ⟨value, middle, known, runs⟩ := computes_value first statics pools.1
      obtain ⟨values, after, rest, count, more⟩ := ih others middle pools.2
      refine ⟨value :: values, after, ?_, by simp [count], fun stack bases => ?_⟩
      · simp [Expr.evalArgs, known, rest]
      · rw [Expr.codeOfArgs, List.reverse_cons, List.append_assoc]
        exact runs_append (runs stack bases) (more (value :: stack) bases)

theorem kind_of_ty {e : Expr} {ty : Ty} (known : e.ty = some ty) : e.kind? = some ty.kind := by
  rw [Expr.kind?, known, Option.map_some]

theorem literal_computes (fits : exe.Fits ledger) {e : Expr} {constant : Constant} {kind : Kind}
    {line : Nat} (plain : e.isAssign = false) (pooled : e.constants = [constant])
    (own : constant.kind = kind)
    (value : ∀ statics, e.eval vm statics = some (constant.value, statics))
    (code : ∀ base keep, e.code base keep = indexed line (.push kind) base) :
    Computes vm exe e := by
  apply computes_of_value plain
  intro base keep statics pools
  refine ⟨_, statics, value statics, fun stack bases => ?_⟩
  rw [code]
  exact runs_push line stack ⟨statics, bases⟩ fits (pooled ▸ pools) own

theorem name_computes (fits : exe.Fits ledger) {note : Note} {identifier : String}
    {binding : Option Binding} (checked : (Expr.name note identifier binding).Checked ledger) :
    Computes vm exe (.name note identifier binding) := by
  have slot := Expr.checked_slot checked fits.vars fits.functions
  apply computes_of_value rfl
  intro base keep statics pools
  match binding with
  | none => exact checked.elim
  | some (.function id) =>
      exact ⟨.function id, statics, rfl, fun stack bases =>
        runs_function note.line stack ⟨statics, bases⟩ slot⟩
  | some (.variable id) =>
      refine ⟨statics id, statics, rfl, fun stack bases => ?_⟩
      obtain ⟨line, ty⟩ := note
      obtain ⟨entry, _, rfl⟩ := checked
      exact runs_load line stack ⟨statics, bases⟩ entry.ty.kind slot

theorem binary_computes {note : Note} {op : BinaryOp} {left right : Expr}
    (checked : (Expr.binary note op left right).Checked ledger) (first : Computes vm exe left)
    (second : Computes vm exe right) : Computes vm exe (.binary note op left right) := by
  obtain ⟨operand, typed, opcode⟩ := Expr.checked_binary checked
  apply computes_of_value rfl
  intro base keep statics pools
  rw [Expr.constants_binary, Executable.pools_append] at pools
  obtain ⟨one, middle, knownLeft, runsLeft⟩ := computes_value first statics pools.1
  obtain ⟨two, after, knownRight, runsRight⟩ := computes_value second middle pools.2
  refine ⟨vm.binary op operand.kind one two, after, ?_, fun stack bases => ?_⟩
  · simp [Expr.eval, kind_of_ty typed, knownLeft, knownRight]
  · rw [Expr.code, opcode]
    exact runs_append (runs_append (runsLeft stack bases) (runsRight (one :: stack) bases))
      (runs_binary note.line stack ⟨after, bases⟩ op operand.kind one two)

theorem unary_computes (fits : exe.Fits ledger) {note : Note} {op : UnaryOp} {operand : Expr}
    (checked : (Expr.unary note op operand).Checked ledger) (own : operand.Checked ledger)
    (inner : Computes vm exe operand) : Computes vm exe (.unary note op operand) := by
  obtain ⟨ty, typed, _, _, mutates⟩ := id checked
  apply computes_of_value rfl
  intro base keep statics pools
  rw [Expr.constants_unary] at pools
  obtain ⟨value, after, known, runs⟩ := computes_value inner statics pools
  -- Both operators that store have the same code up to the opcode that is applied.
  have changes : op.mutates → ∀ opcode : Opcode,
      (∀ s : State Bases, execute vm exe ⟨opcode, []⟩ s = s.mapTop (vm.unary op ty.kind)) →
      ∃ id, operand.slot? = some id ∧ ∀ stack bases,
        Runs vm exe (changed note.line opcode operand.variableTarget)
          ⟨value :: stack, ⟨after, bases⟩⟩
          ⟨vm.unary op ty.kind value :: stack,
            ⟨after.set id (vm.unary op ty.kind value), bases⟩⟩ := by
    intro mutable opcode applied
    obtain ⟨line, identifier, id, rfl⟩ := mutates mutable
    have slot := Expr.checked_slot own fits.vars fits.functions
    exact ⟨id, rfl, fun stack bases =>
      runs_changed note.line stack ⟨after, bases⟩ _ ty value slot applied⟩
  cases op with
  | negate =>
      obtain ⟨_, same, opcode⟩ := Expr.checked_negate checked
      cases typed.symm.trans same
      refine ⟨vm.negate ty.kind value, after, ?_, fun stack bases => ?_⟩
      · simp [Expr.eval, kind_of_ty typed, known, Operations.unary, UnaryOp.mutates]
      · refine runs_append (runs stack bases) ?_
        simp only [unaryCode, Expr.line, Expr.note_unary, opcode, chosen]
        exact runs_written note.line rfl
  | not =>
      refine ⟨vm.not value, after, ?_, fun stack bases => ?_⟩
      · simp [Expr.eval, kind_of_ty typed, known, Operations.unary, UnaryOp.mutates]
      · exact runs_append (runs stack bases) (runs_written note.line rfl)
  | increment =>
      obtain ⟨id, target, stored⟩ := changes rfl .increment fun _ => rfl
      refine ⟨vm.increment value, after.set id (vm.increment value), ?_, fun stack bases => ?_⟩
      · simp [Expr.eval, kind_of_ty typed, known, Operations.unary, UnaryOp.mutates, target]
      · exact runs_append (runs stack bases) (stored stack bases)
  | decrement =>
      obtain ⟨id, target, stored⟩ := changes rfl .decrement fun _ => rfl
      refine ⟨vm.decrement value, after.set id (vm.decrement value), ?_, fun stack bases => ?_⟩
      · simp [Expr.eval, kind_of_ty typed, known, Operations.unary, UnaryOp.mutates, target]
      · exact runs_append (runs stack bases) (stored stack bases)

theorem assign_computes (fits : exe.Fits ledger) {note : Note} {op : AssignOp} {target value : Expr}
    (checked : (Expr.assign note op target value).Checked ledger) (own : target.Checked ledger)
    (second : Computes vm exe value) : Computes vm exe (.assign note op target value) := by
  obtain ⟨ty, ⟨line, identifier, id, rfl⟩, _⟩ := id checked
  have slot : id.index < UInt16.size := Expr.checked_slot own fits.vars fits.functions
  intro base statics pools
  rw [Expr.constants_assign, Expr.constants_name, List.append_nil] at pools
  obtain ⟨right, after, known, runs⟩ := computes_value second statics pools
  have kept : ∀ keep, (keep || !(Expr.assign note op (.name ⟨line, some ty⟩ identifier
      (some (.variable id))) value).isAssign) = keep := fun keep => Bool.or_false keep
  simp only [kept]
  cases op with
  | plain =>
      refine ⟨right, after.set id right, ?_, fun keep stack bases => ?_⟩
      · simp [Expr.eval, Expr.slot?, Expr.kind?, Expr.ty, known, AssignOp.arithmetic?]
      · have stores := runs_append (runs stack bases)
          (runs_stored line stack ⟨after, bases⟩ keep ty right slot)
        show Runs vm exe ([] ++ value.code base true ++ [] ++ stored line keep (.ok (ty, id))) _ _
        rwa [List.nil_append, List.append_nil]
  | compound arith =>
      obtain ⟨_, ⟨_, _, _, same⟩, opcode⟩ := Expr.checked_compound note.line checked
      cases same
      refine ⟨vm.arith arith ty.kind (statics id) right,
        after.set id (vm.arith arith ty.kind (statics id) right), ?_, fun keep stack bases => ?_⟩
      · simp [Expr.eval, Expr.slot?, Expr.kind?, Expr.ty, known, AssignOp.arithmetic?]
      · -- The old value of the target lies below the new one when the operator is applied.
        have before := runs_append
          (runs_load note.line stack ⟨statics, bases⟩ ty.kind slot)
          (runs (statics id :: stack) bases)
        have applied := runs_append before
          (runs_binary value.line stack ⟨after, bases⟩ (.arith arith) ty.kind (statics id) right)
        have stores := runs_append applied (runs_stored line stack ⟨after, bases⟩ keep ty _ slot)
        show Runs vm exe (indexed note.line (.load ty.kind) id.index ++ value.code base true ++
          chosen value.line (value.typed.bind (arith.opcode · note.line)) ++
          stored line keep (.ok (ty, id))) _ _
        rw [opcode]
        exact stores

theorem call_computes (fits : exe.Fits ledger) {note : Note} {callee : Expr} {args : List Expr}
    (checked : (Expr.call note callee args).Checked ledger) (target : Computes vm exe callee)
    (inner : ∀ arg ∈ args, Computes vm exe arg) : Computes vm exe (.call note callee args) := by
  obtain ⟨calleeNote, identifier, id, entry, rfl, found, types, _⟩ := checked
  apply computes_of_value rfl
  intro base keep statics pools
  rw [Expr.constants_call, Executable.pools_append] at pools
  obtain ⟨values, middle, knownArgs, count, runsArgs⟩ :=
    computes_args args inner statics pools.1
  obtain ⟨_, after, knownCallee, runsCallee⟩ := computes_value target middle pools.2
  -- The callee is the name of a function, so its value is the reference that is invoked.
  cases knownCallee
  have arity : values.length = entry.params.length := by
    rw [count, ← List.length_map (f := Expr.ty), types, List.length_map]
  refine ⟨(vm.call id values middle).1, (vm.call id values middle).2, ?_, fun stack bases => ?_⟩
  · simp [Expr.eval, knownArgs]
  · rw [Expr.code]
    exact runs_append (runs_append (runsArgs stack bases) (runsCallee _ bases))
      (runs_invoke note.line stack ⟨middle, bases⟩ fits found arity)

theorem cast_computes {note : Note} {kind : Cast} {operand : Expr}
    (inner : Computes vm exe operand) :
    Computes vm exe (.cast note kind operand) := by
  apply computes_of_value rfl
  intro base keep statics pools
  rw [Expr.constants_cast] at pools
  obtain ⟨value, after, known, runs⟩ := computes_value inner statics pools
  refine ⟨vm.convert kind value, after, ?_, fun stack bases => ?_⟩
  · simp [Expr.eval, known]
  · rw [Expr.code]
    exact runs_append (runs stack bases) (runs_written note.line rfl)

/-- The code of an expression in which every node obeys its rule computes its value. -/
theorem expr_computes (fits : exe.Fits ledger) (e : Expr)
    (checked : ∀ node ∈ e.nodes, node.Checked ledger) : Computes vm exe e := by
  induction e with
  | bool note value | int note value | double note value =>
      exact literal_computes fits rfl rfl rfl (fun statics => rfl) (fun base keep => rfl)
  | name note identifier binding => exact name_computes fits (checked _ (Expr.self_mem_nodes _))
  | binary note op left right first second =>
      obtain ⟨⟨leftNodes, rightNodes⟩, own⟩ := Expr.forall_nodes_binary.mp checked
      exact binary_computes own (first leftNodes) (second rightNodes)
  | unary note op operand inner =>
      obtain ⟨nodes, own⟩ := Expr.forall_nodes_unary.mp checked
      exact unary_computes fits own (nodes operand (Expr.self_mem_nodes operand)) (inner nodes)
  | assign note op target value first second =>
      obtain ⟨⟨valueNodes, targetNodes⟩, own⟩ := Expr.forall_nodes_assign.mp checked
      exact assign_computes fits own (targetNodes target (Expr.self_mem_nodes target))
        (second valueNodes)
  | call note callee args target inner =>
      obtain ⟨⟨argsNodes, calleeNodes⟩, own⟩ := Expr.forall_nodes_call.mp checked
      exact call_computes fits own (target calleeNodes) fun arg member =>
        inner arg member (argsNodes arg member)
  | cast note kind operand inner =>
      exact cast_computes (inner (Expr.forall_nodes_cast.mp checked).1)

end Machine
end StackCompiler
