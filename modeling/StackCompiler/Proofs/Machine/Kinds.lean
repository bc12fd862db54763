import StackCompiler.Proofs.Lowering.Safety
import StackCompiler.Proofs.Machine.Operands

/-!
The kinds of operands in generated code.

A function's name is typed with what the function returns, but its code pushes a reference. So the
code of an expression in which every node obeys its rule finds its operands exactly if no function
is named where a value is taken; then it leaves one operand, of the kind of its type.
-/
namespace StackCompiler

namespace Expr

def isReference : Expr → Bool
  | name _ _ (some (.function _)) => true
  | _ => false

def taken : Expr → List Expr
  | binary _ _ left right => [left, right]
  | unary _ _ operand | cast _ _ operand => [operand]
  | assign _ _ _ value => [value]
  | call _ _ args => args
  | bool .. | int .. | double .. | name .. => []

/-- No node takes the name of a function for a value. -/
def CallsOnly (e : Expr) : Prop :=
  ∀ node ∈ e.nodes, ∀ value ∈ node.taken, value.isReference = false

instance : DecidablePred CallsOnly := fun e =>
  inferInstanceAs (Decidable (∀ node ∈ e.nodes, ∀ value ∈ node.taken, value.isReference = false))

def operand? : Expr → Option Operand
  | name _ _ (some (.function id)) => some (.function id)
  | e => e.ty.map fun ty => .value ty.kind

section
variable (note : Note)

theorem callsOnly_leaf {e : Expr} (leaf : e.nodes = [e]) (none : e.taken = []) : e.CallsOnly := by
  rw [CallsOnly, leaf]
  exact List.forall_mem_singleton.mpr (by rw [none]; exact List.forall_mem_nil _)

theorem callsOnly_binary {op : BinaryOp} {left right : Expr} :
    (binary note op left right).CallsOnly ↔
      (left.CallsOnly ∧ right.CallsOnly) ∧ right.isReference = false ∧
        left.isReference = false :=
  forall_nodes_binary.trans (by simp [CallsOnly, taken, and_comm])

theorem callsOnly_unary {op : UnaryOp} {operand : Expr} :
    (unary note op operand).CallsOnly ↔ operand.CallsOnly ∧ operand.isReference = false :=
  forall_nodes_unary.trans (by simp [CallsOnly, taken])

theorem callsOnly_assign {op : AssignOp} {target value : Expr} :
    (assign note op target value).CallsOnly ↔
      (value.CallsOnly ∧ target.CallsOnly) ∧ value.isReference = false :=
  forall_nodes_assign.trans (by simp [CallsOnly, taken])

theorem callsOnly_call {callee : Expr} {args : List Expr} :
    (call note callee args).CallsOnly ↔
      ((∀ arg ∈ args, arg.CallsOnly) ∧ callee.CallsOnly) ∧
        ∀ arg ∈ args, arg.isReference = false :=
  forall_nodes_call

theorem callsOnly_cast {kind : Cast} {operand : Expr} :
    (cast note kind operand).CallsOnly ↔ operand.CallsOnly ∧ operand.isReference = false :=
  forall_nodes_cast.trans (by simp [CallsOnly, taken])

end

theorem operand?_typed {e : Expr} {ty : Ty} (typed : e.ty = some ty)
    (value : e.isReference = false) :
    e.operand? = some (.value ty.kind) := by
  unfold operand?
  split
  · cases value
  · rw [typed]
    rfl

theorem operand?_reference {e : Expr} (named : e.isReference = true) :
    ∃ id, e.operand? = some (.function id) := by
  unfold isReference at named
  split at named
  · exact ⟨_, rfl⟩
  · cases named

end Expr

structure Executable.Signs (exe : Executable) (ledger : Ledger) : Prop where
  few : ledger.functions.size ≤ UInt16.size
  known : ∀ id entry, ledger.functionAt? id = some entry →
    ∃ f, exe.functions[id.index]? = some f ∧ f.params = entry.params ∧
      f.returns = entry.returns

namespace Operand

theorem take_append (kinds more : List Kind) (stack : List Operand) :
    take (kinds ++ more) stack = (take kinds stack).bind (take more) := by
  induction kinds generalizing stack with
  | nil => rfl
  | cons kind rest ih =>
      match stack with
      | [] | function id :: stack => rfl
      | value found :: stack =>
          rw [List.cons_append, take, take, ih]
          split <;> rfl

theorem take_own (kind : Kind) (stack : List Operand) :
    take [kind] (value kind :: stack) = some stack :=
  if_pos rfl

theorem take_typed {e : Expr} {ty : Ty} {operand : Operand} (typed : e.ty = some ty)
    (left : e.operand? = some operand) (kinds : List Kind) (stack : List Operand) :
    take (ty.kind :: kinds) (operand :: stack) = if e.isReference =
      false then take kinds stack else none := by
  by_cases value : e.isReference = false
  · cases left.symm.trans (Expr.operand?_typed typed value)
    rw [if_pos value, take, if_pos rfl]
  · rcases Expr.operand?_reference (Bool.of_not_eq_false value) with ⟨id, named⟩
    cases left.symm.trans named
    rw [if_neg value, take]
    exact nofun

end Operand

namespace Executable
open Lowering
variable {exe : Executable} {ledger : Ledger}

theorem when_bind {α β : Type} (P : Prop) [Decidable P] (found : α) (next : α → Option β) :
    (if P then some found else none).bind next = if P then next found else none := by
  split <;> rfl

theorem when_when {α : Type} (P Q : Prop) [Decidable P] [Decidable Q] (found : Option α) :
    (if P then if Q then found else none else none) = if P ∧ Q then found else none := by
  by_cases first : P <;> by_cases second : Q <;> simp [first, second]

theorem when_congr {α : Type} {P Q : Prop} [Decidable P] [Decidable Q] (same : P ↔ Q)
    (found : Option α) :
    (if P then found else none) = if Q then found else none := by
  by_cases holds : Q
  · rw [if_pos holds, if_pos (same.mpr holds)]
  · rw [if_neg holds, if_neg (mt same.mp holds)]

theorem when_map {α β : Type} (P : Prop) [Decidable P] (found : Option α) (change : α → β) :
    (if P then found else none).map change = if P then found.map change else none := by
  split <;> rfl

theorem track_written (line : Nat) {opcode : Opcode} {kind : Kind} {kinds given : List Kind}
    (takes : opcode.takes = kind :: kinds) (gives : opcode.gives = given) (stack : List Operand) :
    exe.track (written line opcode) stack =
      (Operand.take (kind :: kinds) stack).map (given.map Operand.value ++ ·) := by
  rw [← takes, ← gives]
  refine (track_single ..).trans ?_
  cases opcode with
  | pushFunction | invoke | pop => cases takes
  | _ => rfl

theorem track_store (line index : Nat) (kind : Kind) (stack : List Operand) :
    exe.track (indexed line (.store kind) index) stack = Operand.take [kind] stack :=
  (track_single ..).trans Option.map_id'

/-- The code of an expression finds its operands exactly if functions are only called, and leaves an
operand if anything waits for it. -/
def Tracks (exe : Executable) (e : Expr) : Prop :=
  ∃ operand, e.operand? = some operand ∧
    ∀ base keep stack, exe.track (e.code base keep) stack =
    if e.CallsOnly then some (if keep || !e.isAssign then operand :: stack else stack) else none

theorem tracks_leaf {e : Expr} {operand : Operand} (leaf : e.nodes = [e]) (none : e.taken = [])
    (plain : e.isAssign = false) (left : e.operand? = some operand)
    (pushed : ∀ base keep stack, exe.track (e.code base keep) stack = some (operand :: stack)) :
    exe.Tracks e := by
  refine ⟨operand, left, fun base keep stack => ?_⟩
  rw [pushed, if_pos (Expr.callsOnly_leaf leaf none), plain, Bool.not_false, Bool.or_true,
    if_pos rfl]

/-- An expression that is no assignment, by what its code does wherever its value is waited for. -/
theorem tracks_value {e : Expr} {ty : Ty} (typed : e.ty = some ty) (value : e.isReference = false)
    (plain : e.isAssign = false)
    (tracked : ∀ base keep stack, exe.track (e.code base keep) stack =
      if e.CallsOnly then some (.value ty.kind :: stack) else none) : exe.Tracks e := by
  refine ⟨_, Expr.operand?_typed typed value, fun base keep stack => ?_⟩
  rw [tracked, plain, Bool.not_false, Bool.or_true, if_pos rfl]

theorem tracks_waited {e : Expr} (tracks : exe.Tracks e) :
    ∃ operand, e.operand? = some operand ∧ ∀ base stack, exe.track (e.code base true) stack =
      if e.CallsOnly then some (operand :: stack) else none := by
  rcases tracks with ⟨operand, left, tracked⟩
  exact ⟨operand, left, fun base stack => tracked base true stack⟩

theorem name_tracks (signs : exe.Signs ledger) {note : Note} {identifier : String}
    {binding : Option Binding} (checked : (Expr.name note identifier binding).Checked ledger) :
    exe.Tracks (.name note identifier binding) := by
  match binding with
  | none => exact checked.elim
  | some (.variable id) =>
      rcases note with ⟨line, ty⟩
      rcases checked with ⟨entry, _, rfl⟩
      exact tracks_leaf rfl rfl rfl rfl fun _ _ _ => rfl
  | some (.function id) =>
      rcases checked with ⟨entry, found, _⟩
      rcases Array.getElem?_eq_some_iff.mp found with ⟨below, _⟩
      refine tracks_leaf rfl rfl rfl rfl fun base keep stack => ?_
      have place : (UInt16.ofNat id.index).toNat = id.index :=
        UInt16.toNat_ofNat_of_lt' (Nat.lt_of_lt_of_le below signs.few)
      refine (track_single ..).trans ?_
      simp [Instruction.apply, place]

theorem binary_tracks {note : Note} {op : BinaryOp} {left right : Expr}
    (checked : (Expr.binary note op left right).Checked ledger) (first : exe.Tracks left)
    (second : exe.Tracks right) : exe.Tracks (.binary note op left right) := by
  rcases Expr.checked_binary checked with ⟨operand, typed, opcode⟩
  rcases checked with ⟨_, result, same, typedRight, whole, accepts⟩
  cases typed.symm.trans same
  rcases tracks_waited first with ⟨one, knownLeft, trackLeft⟩
  rcases tracks_waited second with ⟨two, knownRight, trackRight⟩
  have kinds : (op.opcodeAt operand.kind).takes = [operand.kind, operand.kind] ∧
      (op.opcodeAt operand.kind).gives = [result.kind] := by
    cases op with
    | arith op | compare op =>
        rcases accepts with ⟨_, rfl⟩
        exact ⟨rfl, rfl⟩
    | logic op =>
        rcases accepts with ⟨rfl, rfl⟩
        exact ⟨rfl, rfl⟩
  refine tracks_value whole rfl rfl fun base keep stack => ?_
  rw [Expr.code, opcode, chosen, track_append, track_append, trackLeft, when_bind, trackRight,
    when_when, when_bind, track_written note.line kinds.1 kinds.2,
    Operand.take_typed typedRight knownRight,
    Operand.take_typed typed knownLeft, when_when, when_map, when_when]
  exact when_congr (Expr.callsOnly_binary note).symm _

theorem track_changed {operand : Expr} {one : Operand} (isVariable : operand.IsVariable .int)
    (known : operand.operand? = some one) (line : Nat) {opcode : Opcode}
    (takes : opcode.takes = [.int]) (gives : opcode.gives = [.int]) (stack : List Operand) :
    exe.track (changed line opcode operand.variableTarget) (one :: stack) =
      if operand.isReference = false then some (.value .int :: stack) else none := by
  -- Both operators that store have the same code up to the opcode that is applied.
  rcases isVariable with ⟨_, identifier, id, rfl⟩
  cases known
  show exe.track (written line opcode ++ _ ++ _) _ = _
  rw [track_append, track_append, track_written line takes gives]
  rfl

theorem unary_tracks {note : Note} {op : UnaryOp} {operand : Expr}
    (checked : (Expr.unary note op operand).Checked ledger) (inner : exe.Tracks operand) :
    exe.Tracks (.unary note op operand) := by
  rcases id checked with ⟨ty, typed, whole, admitted, mutates⟩
  rcases tracks_waited inner with ⟨one, known, tracked⟩
  have applied :
      ∀ stack, exe.track (unaryCode (.unary note op operand) op operand) (one :: stack) =
        if operand.isReference = false then some (.value ty.kind :: stack) else none := by
    intro stack
    cases op with
    | negate =>
        rcases Expr.checked_negate checked with ⟨_, same, opcode⟩
        cases typed.symm.trans same
        rw [unaryCode, Expr.line, Expr.note_unary, opcode, chosen, track_written note.line rfl rfl,
          Operand.take_typed typed known, when_map]
        rfl
    | not =>
        cases of_decide_eq_true admitted
        rw [unaryCode, track_written _ rfl rfl]
        refine (congrArg _ (Operand.take_typed typed known _ _)).trans ?_
        rw [when_map]
        rfl
    | increment =>
        cases of_decide_eq_true admitted
        exact track_changed (mutates rfl) known _ rfl rfl stack
    | decrement =>
        cases of_decide_eq_true admitted
        exact track_changed (mutates rfl) known _ rfl rfl stack
  refine tracks_value whole rfl rfl fun base keep stack => ?_
  rw [Expr.code, track_append, tracked, when_bind, applied, when_when]
  exact when_congr (Expr.callsOnly_unary note).symm _

theorem cast_tracks {note : Note} {kind : Cast} {operand : Expr}
    (checked : (Expr.cast note kind operand).Checked ledger) (inner : exe.Tracks operand) :
    exe.Tracks (.cast note kind operand) := by
  rcases checked with ⟨typed, whole⟩
  rcases tracks_waited inner with ⟨one, known, tracked⟩
  refine tracks_value whole rfl rfl fun base keep stack => ?_
  rw [Expr.code, track_append, tracked, when_bind, track_written note.line rfl rfl,
    Operand.take_typed typed known, when_map, when_when]
  exact when_congr (Expr.callsOnly_cast note).symm _

theorem track_stored (line : Nat) (keep : Bool) (ty : Ty) (id : VarId) (stack : List Operand) :
    exe.track (stored line keep (.ok (ty, id))) stack =
      (Operand.take [ty.kind] stack).map fun stack =>
      if keep then .value ty.kind :: stack else stack := by
  rw [stored, track_append, track_store]
  cases Operand.take [ty.kind] stack <;> cases keep <;> rfl

theorem assign_tracks {note : Note} {op : AssignOp} {target value : Expr}
    (checked : (Expr.assign note op target value).Checked ledger) (second : exe.Tracks value) :
    exe.Tracks (.assign note op target value) := by
  rcases id checked with ⟨ty, ⟨line, identifier, id, rfl⟩, typed, whole, _⟩
  rcases tracks_waited second with ⟨one, known, tracked⟩
  refine ⟨.value ty.kind, Expr.operand?_typed whole rfl, fun base keep stack => ?_⟩
  have only :
      (Expr.assign note op (.name ⟨line, some ty⟩ identifier (some (.variable id)))
        value).CallsOnly ↔ value.CallsOnly ∧ value.isReference = false := by
    rw [Expr.callsOnly_assign, and_iff_left (Expr.callsOnly_leaf rfl rfl)]
  have result :
      (if keep || !(Expr.assign note op (.name ⟨line, some ty⟩ identifier (some (.variable id)))
        value).isAssign then Operand.value ty.kind :: stack else stack) =
          if keep then Operand.value ty.kind :: stack else stack := by
    rw [Expr.isAssign, Bool.not_true, Bool.or_false]
  rw [result]
  cases op with
  | plain =>
      show exe.track ([] ++ value.code base true ++ [] ++ stored line keep (.ok (ty, id))) stack = _
      rw [List.nil_append, List.append_nil, track_append, tracked, when_bind, track_stored,
        Operand.take_typed typed known, when_map, when_when]
      exact when_congr only.symm _
  | compound arith =>
      rcases Expr.checked_compound note.line checked with ⟨_, ⟨_, _, _, same⟩, opcode⟩
      cases same
      show exe.track (indexed note.line (.load ty.kind) id.index ++ value.code base true ++
        chosen value.line (value.typed.bind (arith.opcode · note.line)) ++
        stored line keep (.ok (ty, id))) stack = _
      have loaded : exe.track (indexed note.line (.load ty.kind) id.index) stack =
          some (.value ty.kind :: stack) := rfl
      -- The old value of the target lies below the new one when the operator is applied.
      rw [track_append, track_append, track_append, loaded, Option.bind_some, tracked, opcode,
        chosen, when_bind, track_written value.line rfl rfl, Operand.take_typed typed known,
        Operand.take_own, when_map, when_when,
        Option.map_some, when_bind]
      show (if _ then exe.track _ (.value ty.kind :: stack) else none) = _
      rw [track_stored, Operand.take_own]
      exact when_congr only.symm _

theorem args_track (args : List Expr) (inner : ∀ arg ∈ args, exe.Tracks arg) :
    ∃ operands : List Operand, args.map Expr.operand? = operands.map some ∧
      ∀ base stack, exe.track (Expr.codeOfArgs base args) stack =
        if ∀ arg ∈ args, arg.CallsOnly then some (operands.reverse ++ stack) else none := by
  induction args with
  | nil => exact ⟨[], rfl, fun base stack => rfl⟩
  | cons arg rest ih =>
      rcases List.forall_mem_cons.mp inner with ⟨first, others⟩
      rcases tracks_waited first with ⟨one, known, tracked⟩
      rcases ih others with ⟨operands, all, more⟩
      refine ⟨one :: operands, by rw [List.map_cons, known, all,
        List.map_cons], fun base stack => ?_⟩
      rw [Expr.codeOfArgs, track_append, tracked, when_bind, more, when_when, List.reverse_cons,
        List.append_assoc]
      exact when_congr List.forall_mem_cons.symm _

theorem take_args {args : List Expr} {operands : List Operand} {params : List Ty}
    (left : args.map Expr.operand? = operands.map some) (types : args.map Expr.ty = params.map some)
    (stack : List Operand) :
    Operand.take (params.reverse.map Ty.kind) (operands.reverse ++ stack) =
      if ∀ arg ∈ args, arg.isReference = false then some stack else none := by
  -- Arguments are pushed from left to right, so they are taken from right to left.
  induction args generalizing operands params stack with
  | nil =>
      cases operands with
      | cons => cases left
      | nil =>
          cases params with
          | cons => cases types
          | nil => rfl
  | cons arg rest ih =>
      cases operands with
      | nil => cases left
      | cons operand operands =>
          cases params with
          | nil => cases types
          | cons ty params =>
              rcases List.cons.inj left with ⟨known, all⟩
              rcases List.cons.inj types with ⟨typed, others⟩
              have first : Operand.take ([ty].map Ty.kind) ([operand] ++ stack) =
                  if arg.isReference = false then some stack else none :=
                Operand.take_typed typed known [] stack
              rw [List.reverse_cons, List.map_append, List.reverse_cons, List.append_assoc,
                Operand.take_append, ih all others, when_bind, first, when_when]
              exact when_congr (and_comm.trans List.forall_mem_cons.symm) _

theorem call_tracks (signs : exe.Signs ledger) {note : Note} {callee : Expr} {args : List Expr}
    (checked : (Expr.call note callee args).Checked ledger) (target : exe.Tracks callee)
    (inner : ∀ arg ∈ args, exe.Tracks arg) : exe.Tracks (.call note callee args) := by
  rcases checked with ⟨calleeNote, identifier, id, entry, rfl, found, types, whole⟩
  rcases signs.known id entry found with ⟨f, listed, params, returns⟩
  rcases tracks_waited target with ⟨_, reference, pushed⟩
  cases reference
  rcases args_track args inner with ⟨operands, left, tracked⟩
  refine tracks_value whole rfl rfl fun base keep stack => ?_
  have invoked :
      exe.track (written note.line .invoke) (.function id :: (operands.reverse ++ stack)) =
        if ∀ arg ∈ args, arg.isReference =
          false then some (.value entry.returns.kind :: stack) else none := by
    refine (track_single ..).trans ?_
    show Operand.invoke exe (.function id :: (operands.reverse ++ stack)) = _
    rw [Operand.invoke, listed, Option.bind_some, params, take_args left types, when_map, returns]
    rfl
  rw [Expr.code, track_append, track_append, tracked, when_bind, pushed, when_when, when_bind,
    invoked, when_when]
  exact when_congr (Expr.callsOnly_call note).symm _

/-- The code of a sound expression finds its operands exactly if functions are only called. -/
theorem expr_tracks (signs : exe.Signs ledger) (e : Expr)
    (checked : ∀ node ∈ e.nodes, node.Checked ledger) :
    exe.Tracks e := by
  induction e with
  | bool note value | int note value | double note value =>
      exact tracks_leaf rfl rfl rfl (Expr.operand?_typed (checked _ (Expr.self_mem_nodes _)) rfl)
        fun _ _ _ => rfl
  | name note identifier binding => exact name_tracks signs (checked _ (Expr.self_mem_nodes _))
  | binary note op left right first second =>
      rcases Expr.forall_nodes_binary.mp checked with ⟨⟨leftNodes, rightNodes⟩, own⟩
      exact binary_tracks own (first leftNodes) (second rightNodes)
  | unary note op operand inner =>
      rcases Expr.forall_nodes_unary.mp checked with ⟨nodes, own⟩
      exact unary_tracks own (inner nodes)
  | assign note op target value first second =>
      rcases Expr.forall_nodes_assign.mp checked with ⟨⟨valueNodes, _⟩, own⟩
      exact assign_tracks own (second valueNodes)
  | call note callee args target inner =>
      rcases Expr.forall_nodes_call.mp checked with ⟨⟨argsNodes, calleeNodes⟩, own⟩
      exact call_tracks signs own (target calleeNodes) fun arg member =>
        inner arg member (argsNodes arg member)
  | cast note kind operand inner =>
      rcases Expr.forall_nodes_cast.mp checked with ⟨nodes, own⟩
      exact cast_tracks own (inner nodes)

end Executable
end StackCompiler
