import StackCompiler.Proofs.Scope.Layers
import StackCompiler.Proofs.Typing.Names

/-!
What typing guarantees of every node.

`Checked` is the typing rule of a node, read off the tree that typing leaves: operands have the type
that the node needs, casts included. A node that was given a type obeys its rule whatever is wrong
around it (`typeExpr_elaborated`), and a node is left without a type exactly when something was
reported in it (`typeExpr_untyped`). So typing without a report establishes the rule at every node
(`typeExpr_sound`).
-/
namespace StackCompiler

/-- The types an operator takes on both sides, and the type of the whole. -/
def BinaryOp.Accepts (op : BinaryOp) (operand result : Ty) : Prop :=
  match op with
  | .arith _ => operand.isNumeric ∧ result = operand
  | .compare op =>
      (operand.isNumeric ∨ op.isEquality ∧ operand = .boolean) ∧ result = .boolean
  | .logic _ => operand = .boolean ∧ result = .boolean

namespace Expr

section
variable (note : Note)

@[simp] theorem ty_bool (value : Bool) : (bool note value).ty = note.ty := rfl

@[simp] theorem ty_int (value : Int32) : (int note value).ty = note.ty := rfl

@[simp] theorem ty_double (value : Double) : (double note value).ty = note.ty := rfl

@[simp] theorem ty_name (identifier : String) (binding : Option Binding) :
    (name note identifier binding).ty = note.ty := rfl

@[simp] theorem ty_binary (op : BinaryOp) (left right : Expr) :
    (binary note op left right).ty = note.ty := rfl

@[simp] theorem ty_unary (op : UnaryOp) (operand : Expr) :
    (unary note op operand).ty = note.ty := rfl

@[simp] theorem ty_assign (op : AssignOp) (target value : Expr) :
    (assign note op target value).ty = note.ty := rfl

@[simp] theorem ty_call (callee : Expr) (args : List Expr) :
    (call note callee args).ty = note.ty := rfl

@[simp] theorem ty_cast (kind : Cast) (operand : Expr) :
    (cast note kind operand).ty = note.ty := rfl

end

def IsVariable (e : Expr) (ty : Ty) : Prop :=
  ∃ line identifier id, e = .name ⟨line, some ty⟩ identifier (some (.variable id))

def Checked (ledger : Ledger) : Expr → Prop
  | bool note _ => note.ty = some .boolean
  | int note _ => note.ty = some .int
  | double note _ => note.ty = some .double
  | name note _ binding =>
      match binding with
      | some (.variable id) =>
          ∃ entry, ledger.variableAt? id = some entry ∧ note.ty = some entry.ty
      | some (.function id) =>
          ∃ entry, ledger.functionAt? id = some entry ∧ note.ty = some entry.returns
      | none => False
  | binary note op left right =>
      ∃ operand result, left.ty = some operand ∧ right.ty = some operand ∧
        note.ty = some result ∧ op.Accepts operand result
  | unary note op operand =>
      ∃ ty, operand.ty = some ty ∧ note.ty = some ty ∧ op.admits ty ∧
        (op.mutates → operand.IsVariable ty)
  | assign note op target value =>
      ∃ ty, target.IsVariable ty ∧ value.ty = some ty ∧ note.ty = some ty ∧
        (op.isCompound → ty.isNumeric)
  | call note callee args =>
      ∃ calleeNote identifier id entry, callee =
        .name calleeNote identifier (some (.function id)) ∧
        ledger.functionAt? id = some entry ∧ args.map Expr.ty = entry.params.map some ∧
        note.ty = some entry.returns
  | cast note kind operand => operand.ty = some kind.source ∧ note.ty = some kind.target

/-- An expression of a type in which every node obeys its rule. -/
def Sound (ledger : Ledger) (e : Expr) (ty : Ty) : Prop :=
  (∀ node ∈ e.nodes, node.Checked ledger) ∧ e.ty = some ty

/-- An expression in which every node that has a type obeys its rule. -/
def Elaborated (ledger : Ledger) (e : Expr) : Prop :=
  ∀ node ∈ e.nodes, node.ty.isSome → node.Checked ledger

def Converts (e : Expr) : Prop :=
  ∃ (kind : Cast) (operand : Expr), e = operand.convert kind ∧ operand.ty = some kind.source

def isCast : Expr → Bool
  | cast .. => true
  | _ => false

def originals (e : Expr) : List Expr := e.nodes.filter fun node => !node.isCast

/-- A whole that has the operands under it, perhaps with casts around them. -/
structure MadeOf (whole : Expr) (operands : List Expr) : Prop where
  originals : whole.originals = operands.flatMap Expr.originals ++ [whole]
  casts : ∀ node ∈ whole.nodes, node.isCast →
    (∃ operand ∈ operands, node ∈ operand.nodes) ∨ node.Converts

section
variable {ledger : Ledger} {e : Expr} {source ty : Ty}

theorem converts_checked (converts : e.Converts) : e.Checked ledger := by
  rcases converts with ⟨kind, operand, rfl, typed⟩
  exact ⟨typed, rfl⟩

theorem convert_originals (kind : Cast) (e : Expr) : (e.convert kind).originals = e.originals := by
  simp [originals, convert, nodes, isCast]

theorem convert_nodes {kind : Cast} (typed : e.ty = some kind.source) :
    ∀ node ∈ (e.convert kind).nodes, node ∈ e.nodes ∨ node.Converts := by
  intro node member
  rcases List.mem_append.mp member with inside | own
  · exact .inl inside
  · exact .inr ⟨kind, e, List.mem_singleton.mp own, typed⟩

theorem into?_convert {kind : Cast} (into : Coercion.into? source ty = some (.convert kind)) :
    source = kind.source ∧ ty = kind.target := by
  unfold Coercion.into? at into
  split at into
  · cases into
  · rcases Option.map_eq_some_iff.mp into with ⟨found, between, same⟩
    cases same
    exact Cast.between?_eq_some_iff.mp between

theorem into?_identity (into : Coercion.into? source ty = some .identity) : source = ty := by
  unfold Coercion.into? at into
  split at into
  · assumption
  · rcases Option.map_eq_some_iff.mp into with ⟨_, _, impossible⟩
    cases impossible

theorem coerce_spec {coercion : Coercion} (typed : e.ty = some source)
    (coerced : Coercion.into? source ty = some coercion) :
    (e.coerce coercion).ty = some ty ∧
      ∀ node ∈ (e.coerce coercion).nodes, node ∈ e.nodes ∨ node.Converts := by
  cases coercion with
  | identity =>
      have same := into?_identity coerced
      subst same
      exact ⟨typed, fun node => .inl⟩
  | convert kind =>
      rcases into?_convert coerced with ⟨rfl, rfl⟩
      exact ⟨rfl, convert_nodes typed⟩

theorem coerce_originals (e : Expr) (coercion : Coercion) :
    (e.coerce coercion).originals = e.originals := by
  cases coercion with
  | identity => rfl
  | convert kind => exact convert_originals kind e

theorem sound_coerce {coercion : Coercion} (sound : e.Sound ledger source)
    (coerced : Coercion.into? source ty = some coercion) : (e.coerce coercion).Sound ledger ty := by
  rcases coerce_spec sound.2 coerced with ⟨typed, nodes⟩
  refine ⟨fun node member => ?_, typed⟩
  rcases nodes node member with inside | converts
  · exact sound.1 node inside
  · exact converts_checked converts

end

theorem widenIf_spec {e : Expr} {ty : Ty} {widen : Bool} (typed : e.ty = some ty)
    (int : widen = true → ty = .int) :
    (e.widenIf widen).ty = some (if widen then .double else ty) ∧
      ∀ node ∈ (e.widenIf widen).nodes, node ∈ e.nodes ∨ node.Converts := by
  cases widen with
  | false => exact ⟨typed, fun node => .inl⟩
  | true =>
      cases int rfl
      exact ⟨rfl, convert_nodes typed⟩

theorem widenIf_originals (e : Expr) (widen : Bool) :
    (e.widenIf widen).originals = e.originals := by
  cases widen with
  | false => rfl
  | true => exact convert_originals .intToDouble e

end Expr

theorem Promotion.of?_spec {left right : Ty} {promotion : Promotion}
    (promoted : Promotion.of? left right = some promotion) :
    promotion.operand.isNumeric ∧
      (promotion.widenLeft = true → left = .int) ∧
        (promotion.widenRight = true → right = .int) ∧
      (if promotion.widenLeft then .double else left) = promotion.operand ∧
      (if promotion.widenRight then .double else right) = promotion.operand := by
  cases left <;> cases right <;> cases promoted <;> decide

theorem BinaryOp.typing?_spec {op : BinaryOp} {left right : Ty} {typing : BinaryTyping}
    (typed : op.typing? left right = some typing) :
    ∃ operand, op.Accepts operand typing.result ∧
      (typing.widenLeft = true → left = .int) ∧ (typing.widenRight = true → right = .int) ∧
      (if typing.widenLeft then .double else left) = operand ∧
      (if typing.widenRight then .double else right) = operand := by
  cases op with
  | arith op =>
      rcases Option.map_eq_some_iff.mp typed with ⟨promotion, promoted, rfl⟩
      rcases Promotion.of?_spec promoted with ⟨numeric, widens⟩
      exact ⟨promotion.operand, ⟨numeric, rfl⟩, widens⟩
  | compare op =>
      simp only [typing?] at typed
      split at typed
      · rename_i booleans
        rcases booleans with ⟨equality, rfl, rfl⟩
        cases typed
        exact ⟨.boolean, ⟨.inr ⟨equality, rfl⟩, rfl⟩, by decide⟩
      · rcases Option.map_eq_some_iff.mp typed with ⟨promotion, promoted, rfl⟩
        rcases Promotion.of?_spec promoted with ⟨numeric, widens⟩
        exact ⟨promotion.operand, ⟨.inl numeric, rfl⟩, widens⟩
  | logic op =>
      simp only [typing?] at typed
      split at typed
      · rename_i booleans
        rcases booleans with ⟨rfl, rfl⟩
        cases typed
        exact ⟨.boolean, ⟨rfl, rfl⟩, by decide⟩
      · cases typed

/-! A whole whose operands were converted or left as they were. -/

namespace Expr

theorem originals_plain {whole : Expr} {inside : List Expr}
    (shape : whole.nodes = inside ++ [whole])
    (plain : whole.isCast = false) :
    whole.originals = inside.filter (fun node => !node.isCast) ++ [whole] := by
  rw [originals, shape, List.filter_append]
  simp [plain]

theorem madeOf_pair {whole left right first second : Expr}
    (shape : whole.nodes = first.nodes ++ second.nodes ++ [whole]) (plain : whole.isCast = false)
    (same : first.originals = left.originals ∧ second.originals = right.originals)
    (converted : ∀ node ∈ first.nodes, node ∈ left.nodes ∨ node.Converts)
    (other : ∀ node ∈ second.nodes, node ∈ right.nodes ∨ node.Converts) :
    whole.MadeOf [left, right] := by
  constructor
  · rw [originals_plain shape plain, List.filter_append]
    change first.originals ++ second.originals ++ _ = _
    simp [same]
  · intro node member cast
    rw [shape] at member
    simp only [List.mem_append, List.mem_singleton] at member
    rcases member with (inside | inside) | rfl
    · rcases converted node inside with inside | converts
      · exact .inl ⟨left, List.mem_cons_self, inside⟩
      · exact .inr converts
    · rcases other node inside with inside | converts
      · exact .inl ⟨right, List.mem_cons_of_mem _ List.mem_cons_self, inside⟩
      · exact .inr converts
    · rw [plain] at cast
      cases cast

theorem madeOf_single {whole operand : Expr} (shape : whole.nodes = operand.nodes ++ [whole])
    (plain : whole.isCast = false) : whole.MadeOf [operand] := by
  constructor
  · rw [originals_plain shape plain]
    exact congrArg (· ++ _) (List.append_nil _).symm
  · intro node member cast
    rw [shape] at member
    rcases List.mem_append.mp member with inside | own
    · exact .inl ⟨operand, List.mem_cons_self, inside⟩
    · rw [List.mem_singleton.mp own, plain] at cast
      cases cast

theorem madeOf_call {note : Note} (callee : Expr) {passed args : List Expr}
    (same : passed.map originals = args.map originals)
    (converted : ∀ arg ∈ passed, ∀ node ∈ arg.nodes,
      (∃ arg ∈ args, node ∈ arg.nodes) ∨ node.Converts) :
    (call note callee passed).MadeOf (args ++ [callee]) := by
  constructor
  · have inside :
        (passed.flatMap nodes).filter (fun node => !node.isCast) = args.flatMap originals := by
      rw [List.filter_flatMap, List.flatMap_def, List.flatMap_def]
      exact congrArg List.flatten same
    rw [originals_plain (nodes_call ..) rfl, nodesOfArgs_eq, List.filter_append, inside]
    simp [originals]
  · intro node member cast
    simp only [nodes, nodesOfArgs_eq, List.mem_append, List.mem_flatMap,
      List.mem_singleton] at member
    rcases member with (⟨arg, passing, inside⟩ | inside) | rfl
    · rcases converted arg passing node inside with ⟨arg, passing, inside⟩ | converts
      · exact .inl ⟨arg, List.mem_append_left _ passing, inside⟩
      · exact .inr converts
    · exact .inl ⟨callee, List.mem_append_right _ List.mem_cons_self, inside⟩
    · cases cast

end Expr

/-! The rules one by one: what a node obeys once it has a type, when it has none, and what it is
made of. -/

namespace Typing
variable {ledger : Ledger} (line : Nat)

theorem binary_checked (op : BinaryOp) (left right : Expr)
    (typed : (binary line op left right).node.ty.isSome) :
    (binary line op left right).node.Checked ledger := by
  unfold binary at typed ⊢
  split at typed
  · rename_i leftTy rightTy leftTyped rightTyped
    split at typed
    · rename_i typing found
      rcases BinaryOp.typing?_spec found
        with ⟨operand, accepts, leftInt, rightInt, widenLeft, widenRight⟩
      have first := (Expr.widenIf_spec leftTyped leftInt).1
      have second := (Expr.widenIf_spec rightTyped rightInt).1
      rw [widenLeft] at first
      rw [widenRight] at second
      exact ⟨operand, typing.result, first, second, rfl, accepts⟩
    · cases typed
  · cases typed

theorem binary_untyped (op : BinaryOp) (left right : Expr) :
    (binary line op left right).node.ty = none ↔
      left.ty = none ∨ right.ty = none ∨ (binary line op left right).diagnostics ≠ [] := by
  unfold binary
  split
  · rename_i leftTy rightTy leftTyped rightTyped
    rw [leftTyped, rightTyped]
    split <;> simp
  · rename_i untyped
    cases leftTyped : left.ty with
    | none => simp
    | some leftTy =>
        cases rightTyped : right.ty with
        | none => simp
        | some rightTy => exact absurd rightTyped (untyped leftTy rightTy leftTyped)

theorem binary_madeOf (op : BinaryOp) (left right : Expr) :
    (binary line op left right).node.MadeOf [left, right] := by
  unfold binary
  split
  · rename_i leftTy rightTy leftTyped rightTyped
    split
    · rename_i typing found
      rcases BinaryOp.typing?_spec found with ⟨_, _, leftInt, rightInt, _⟩
      exact Expr.madeOf_pair rfl rfl ⟨Expr.widenIf_originals .., Expr.widenIf_originals ..⟩
        (Expr.widenIf_spec leftTyped leftInt).2 (Expr.widenIf_spec rightTyped rightInt).2
    · exact Expr.madeOf_pair rfl rfl ⟨rfl, rfl⟩ (fun _ => .inl) (fun _ => .inl)
  · exact Expr.madeOf_pair rfl rfl ⟨rfl, rfl⟩ (fun _ => .inl) (fun _ => .inl)

theorem mutated_variable {op : UnaryOp} {operand : Expr} {ty : Ty} (mutates : op.mutates)
    (shaped : op.shapeProblem? operand = none) (own : operand.Checked ledger)
    (typed : operand.ty = some ty) :
    operand.IsVariable ty := by
  unfold UnaryOp.shapeProblem? at shaped
  rw [if_pos mutates] at shaped
  match operand, typed with
  | .name ⟨line, _⟩ identifier (some (.variable id)), rfl =>
      exact ⟨line, identifier, id, rfl⟩
  | .name _ _ none, _ => exact own.elim
  | .name _ _ (some (.function _)), _ => cases shaped

theorem unary_checked (op : UnaryOp) (operand : Expr)
    (own : operand.ty.isSome → operand.Checked ledger)
    (typed : (unary line op operand).node.ty.isSome) :
    (unary line op operand).node.Checked ledger := by
  unfold unary at typed ⊢
  split at typed
  · cases typed
  · cases typed
  · rename_i ty shaped found
    split at typed
    · rename_i admitted
      rw [if_pos admitted]
      have checked := own (by rw [found]; rfl)
      exact ⟨ty, found, rfl, admitted, fun mutates =>
        mutated_variable mutates shaped checked found⟩
    · cases typed

theorem unary_untyped (op : UnaryOp) (operand : Expr) :
    (unary line op operand).node.ty = none ↔
      operand.ty = none ∨ (unary line op operand).diagnostics ≠ [] := by
  unfold unary
  split
  · simp
  · rename_i untyped
    simp [untyped]
  · rename_i ty shaped found
    rw [found]
    split <;> simp

theorem unary_madeOf (op : UnaryOp) (operand : Expr) :
    (unary line op operand).node.MadeOf [operand] := by
  unfold unary
  split
  · exact Expr.madeOf_single rfl rfl
  · exact Expr.madeOf_single rfl rfl
  · split <;> exact Expr.madeOf_single rfl rfl

theorem assign_checked (op : AssignOp) (target value : Expr)
    (typed : (assign line op target value).node.ty.isSome) :
    (assign line op target value).node.Checked ledger := by
  unfold assign at typed ⊢
  split at typed
  · rename_i note identifier id
    split at typed
    · rename_i targetTy valueTy targetTyped valueTyped
      split at typed
      · cases typed
      · rename_i numeric
        split at typed
        · rename_i coercion coerced
          have value := (Expr.coerce_spec valueTyped coerced).1
          have named : (Expr.name note identifier (some (.variable id))).IsVariable targetTy := by
            rcases note with ⟨line, ty⟩
            cases targetTyped
            exact ⟨line, identifier, id, rfl⟩
          rw [if_neg numeric]
          exact ⟨targetTy, named, value, rfl, fun compound => by simpa [compound] using numeric⟩
        · cases typed
    · cases typed
  · cases typed
  · cases typed

theorem assign_untyped (op : AssignOp) (target value : Expr)
    (own : target.ty.isSome → target.Checked ledger) :
    (assign line op target value).node.ty = none ↔
      target.ty = none ∨ value.ty = none ∨
      (assign line op target value).diagnostics ≠ [] := by
  unfold assign
  split
  · rename_i note identifier id
    split
    · rename_i targetTy valueTy targetTyped valueTyped
      rw [valueTyped]
      split
      · simp
      · split <;> simp [targetTyped]
    · rename_i untyped
      cases targetTyped : note.ty with
      | none => simp [targetTyped]
      | some targetTy =>
          cases valueTyped : value.ty with
          | none => simp
          | some valueTy => exact absurd valueTyped (untyped targetTy valueTy targetTyped)
  -- A name that stands for nothing was reported and got no type.
  · rename_i note identifier
    cases untyped : note.ty with
    | none => simp [untyped]
    | some ty => exact (own (by simp [untyped])).elim
  · simp

theorem assign_madeOf (op : AssignOp) (target value : Expr) :
    (assign line op target value).node.MadeOf [value, target] := by
  have plain : ∀ note, (Expr.assign note op target value).MadeOf [value, target] := fun note =>
    Expr.madeOf_pair rfl rfl ⟨rfl, rfl⟩ (fun _ => .inl) (fun _ => .inl)
  unfold assign
  split
  · split
    · rename_i targetTy valueTy targetTyped valueTyped
      split
      · exact plain _
      · split
        · rename_i coercion coerced
          exact Expr.madeOf_pair rfl rfl ⟨Expr.coerce_originals .., rfl⟩
            (Expr.coerce_spec valueTyped coerced).2 (fun _ => .inl)
        · exact plain _
    · exact plain _
  · exact plain _
  · exact plain _

/-- Arguments that all have a type and are not reported have the types of the parameters. -/
theorem arguments_types (callee : String) (position : Nat) (types : List Ty) (args : List Expr)
    (typed : ∀ arg ∈ args, arg.ty.isSome) (same : args.length = types.length)
    (clean : (arguments line callee position types args).diagnostics = []) :
    (arguments line callee position types args).node.map Expr.ty = types.map some := by
  induction types generalizing position args with
  | nil =>
      cases args with
      | nil => rfl
      | cons arg args => cases same
  | cons required types ih =>
      cases args with
      | nil => cases same
      | cons arg args =>
          rcases List.forall_mem_cons.mp typed with ⟨own, others⟩
          rcases Option.isSome_iff_exists.mp own with ⟨passed, known⟩
          have rest := ih (position + 1) args others (Nat.succ.inj same)
          unfold arguments at clean ⊢
          simp only [known] at clean ⊢
          split at clean
          · rename_i coercion coerced
            rw [List.map_cons, List.map_cons, rest clean, (Expr.coerce_spec known coerced).1]
          · cases clean

theorem arguments_nodes (callee : String) (position : Nat) (types : List Ty) (args : List Expr) :
    ∀ arg ∈ (arguments line callee position types args).node, ∀ node ∈ arg.nodes,
      (∃ arg ∈ args, node ∈ arg.nodes) ∨ node.Converts := by
  induction types generalizing position args with
  | nil => exact fun arg member node inside => .inl ⟨arg, member, inside⟩
  | cons required types ih =>
      cases args with
      | nil => exact fun arg member => by cases member
      | cons arg args =>
          have later : ∀ passed ∈ (arguments line callee (position + 1) types args).node,
              ∀ node ∈ passed.nodes, (∃ other ∈ arg :: args, node ∈ other.nodes) ∨
              node.Converts := by
            intro passed member node inside
            rcases ih (position + 1) args passed member node inside
              with ⟨other, among, inside⟩ | converts
            · exact .inl ⟨other, List.mem_cons_of_mem _ among, inside⟩
            · exact .inr converts
          have here : ∀ node ∈ arg.nodes, (∃ other ∈ arg :: args, node ∈ other.nodes) ∨
            node.Converts :=
            fun node inside => .inl ⟨arg, List.mem_cons_self, inside⟩
          unfold arguments
          split
          · exact List.forall_mem_cons.mpr ⟨here, later⟩
          · rename_i passed known
            split
            · rename_i coercion coerced
              refine List.forall_mem_cons.mpr ⟨fun node member => ?_, later⟩
              rcases (Expr.coerce_spec known coerced).2 node member with inside | converts
              · exact here node inside
              · exact .inr converts
            · exact List.forall_mem_cons.mpr ⟨here, later⟩

theorem arguments_originals (callee : String) (position : Nat) (types : List Ty)
    (args : List Expr) :
    (arguments line callee position types args).node.map Expr.originals =
      args.map Expr.originals := by
  induction types generalizing position args with
  | nil => rfl
  | cons required types ih =>
      cases args with
      | nil => rfl
      | cons arg args =>
          unfold arguments
          split
          · simp only [List.map_cons, ih]
          · split <;> simp only [List.map_cons, ih, Expr.coerce_originals]

theorem callOf_typed {callee : Expr} {args : List Expr} {name : String} {params : List Ty}
    {returns : Ty} (typed : (callOf line callee args name params returns).node.ty.isSome) :
    ∃ passed, (callOf line callee args name params returns).node =
      .call ⟨line, some returns⟩ callee passed ∧
      passed.map Expr.ty = params.map some := by
  unfold callOf at typed ⊢
  split at typed
  · cases typed
  · rename_i count
    rw [if_neg count]
    by_cases complete : (args.all (·.ty.isSome) &&
        (arguments line name 1 params args).diagnostics.isEmpty) = true
    · simp only [if_pos complete]
      simp only [Bool.and_eq_true, List.all_eq_true, List.isEmpty_iff] at complete
      exact ⟨_, rfl, arguments_types line name 1 params args complete.1
        (Decidable.of_not_not count) complete.2⟩
    · simp [complete] at typed

theorem callOf_untyped (callee : Expr) (args : List Expr) (name : String) (params : List Ty)
    (returns : Ty) :
    (callOf line callee args name params returns).node.ty = none ↔
      (∃ arg ∈ args, arg.ty = none) ∨
        (callOf line callee args name params returns).diagnostics ≠ [] := by
  unfold callOf
  split
  · simp
  · by_cases all : ∃ arg ∈ args, arg.ty = none
    · rcases all with ⟨arg, member, untyped⟩
      have incomplete : args.all (·.ty.isSome) = false := by
        rw [List.all_eq_false]
        exact ⟨arg, member, by simp [untyped]⟩
      simp only [incomplete, Bool.false_and, Bool.false_eq_true, if_false, Expr.ty_call, true_iff]
      exact .inl ⟨arg, member, untyped⟩
    · have complete : args.all (·.ty.isSome) = true := by
        rw [List.all_eq_true]
        exact fun arg member => Option.isSome_iff_ne_none.mpr fun untyped =>
          all ⟨arg, member, untyped⟩
      simp [complete, all]

end Typing

namespace Ledger
variable {ledger : Ledger}

/-- The binding is an entry of the ledger, and a use of it has the type. -/
def Gives (ledger : Ledger) (ty : Option Ty) : Binding → Prop
  | .variable id => ∃ entry, ledger.variableAt? id = some entry ∧ ty = some entry.ty
  | .function id => ∃ entry, ledger.functionAt? id = some entry ∧ ty = some entry.returns

theorem resolve_gives {name : String} {binding : Binding} {ty : Option Ty}
    (resolved : ledger.resolve name = some (binding, ty)) : ledger.Gives ty binding := by
  unfold resolve at resolved
  split at resolved
  · rename_i id found
    cases resolved
    rcases Option.map_eq_some_iff.mp found with ⟨index, looked, rfl⟩
    rcases lookup_found looked with ⟨entry, recorded, _⟩
    have known : ledger.variableAt? ⟨index⟩ = some entry := recorded
    exact ⟨entry, known, by rw [known]; rfl⟩
  · split at resolved
    · rename_i id found
      cases resolved
      rcases Option.map_eq_some_iff.mp found with ⟨index, looked, rfl⟩
      rcases lookup_found looked with ⟨entry, recorded, _⟩
      have known : ledger.functionAt? ⟨index⟩ = some entry := recorded
      exact ⟨entry, known, by rw [known]; rfl⟩
    · cases resolved

theorem typeName_checked (line : Nat) (name : String) (old : Option Binding)
    (typed : (ledger.typeName line name old).node.ty.isSome) :
    (ledger.typeName line name old).node.Checked ledger := by
  unfold typeName at typed ⊢
  split at typed
  · rename_i binding ty resolved
    have gives := resolve_gives resolved
    cases binding <;> exact gives
  · cases typed

theorem typeName_untyped (line : Nat) (name : String) (old : Option Binding) :
    (ledger.typeName line name old).node.ty = none ↔
      (ledger.typeName line name old).diagnostics ≠ [] := by
  unfold typeName
  split
  · rename_i binding ty resolved
    have gives := resolve_gives resolved
    cases binding <;> rcases gives with ⟨entry, _, rfl⟩ <;> simp
  · simp

def Callable (ledger : Ledger) : Expr → Prop
  | .name note _ (some (.function id)) => (ledger.functionAt? id).isSome → note.ty.isSome
  | _ => True

theorem typeCall_checked (line : Nat) (callee : Expr) (args : List Expr)
    (typed : (ledger.typeCall line callee args).node.ty.isSome) :
    (ledger.typeCall line callee args).node.Checked ledger := by
  unfold typeCall at typed ⊢
  split at typed
  · rename_i note identifier id
    split at typed
    · rename_i entry known
      rcases Typing.callOf_typed line typed with ⟨passed, shape, types⟩
      simp only [shape]
      exact ⟨note, identifier, id, entry, rfl, known, types, rfl⟩
    · cases typed
  · cases typed
  · cases typed
  · cases typed

theorem typeCall_untyped (line : Nat) (callee : Expr) (args : List Expr)
    (own : callee.ty.isSome → callee.Checked ledger) (callable : ledger.Callable callee) :
    (ledger.typeCall line callee args).node.ty = none ↔
      callee.ty = none ∨ (∃ arg ∈ args, arg.ty = none) ∨
        (ledger.typeCall line callee args).diagnostics ≠ [] := by
  unfold typeCall
  split
  · rename_i note identifier id
    cases known : ledger.functionAt? id with
    | none =>
        -- A callee with a type would have an entry.
        cases typed : note.ty with
        | none => simp [typed]
        | some ty =>
            rcases own (by simp [typed]) with ⟨entry, found, _⟩
            rw [known] at found
            cases found
    | some entry =>
        have typed : note.ty.isSome := callable (by rw [known]; rfl)
        rcases Option.isSome_iff_exists.mp typed with ⟨ty, typed⟩
        simp only [Typing.callOf_untyped, Expr.ty_name, typed, reduceCtorEq, false_or]
  · rename_i note identifier
    cases untyped : note.ty with
    | none => simp [untyped]
    | some ty => exact (own (by simp [untyped])).elim
  · simp
  · simp

theorem typeCall_madeOf (ledger : Ledger) (line : Nat) (callee : Expr) (args : List Expr) :
    (ledger.typeCall line callee args).node.MadeOf (args ++ [callee]) := by
  have plain : ∀ note, (Expr.call note callee args).MadeOf (args ++ [callee]) := fun note =>
    Expr.madeOf_call callee rfl fun arg member node inside => .inl ⟨arg, member, inside⟩
  unfold typeCall
  split
  · split
    · unfold Typing.callOf
      split
      · exact plain _
      · exact Expr.madeOf_call _ (Typing.arguments_originals line _ 1 _ args)
          (Typing.arguments_nodes line _ 1 _ args)
    · exact plain _
  · exact plain _
  · exact plain _
  · exact plain _

/-! Whole expressions. -/

theorem callable_of_erased {e : Expr} (shape : e.erased.isName = false) : ledger.Callable e := by
  cases e with
  | name note identifier binding => cases shape
  | _ => trivial

theorem typeName_callable (line : Nat) (name : String) :
    ledger.Callable (ledger.typeName line name none).node := by
  unfold typeName
  split
  · rename_i binding ty resolved
    have gives := resolve_gives resolved
    rcases binding with id | id
    · trivial
    · rcases gives with ⟨entry, _, rfl⟩
      exact fun _ => rfl
  · trivial

theorem typeExpr_callable (e : Expr) (fresh : e.Fresh) :
    ledger.Callable (ledger.typeExpr e).node := by
  cases e with
  | bool | int | double => trivial
  | name note identifier binding =>
      rcases (fresh _ (Expr.self_mem_nodes _)).2 with rfl
      exact typeName_callable ..
  | binary note op left right =>
      refine callable_of_erased ?_
      simp only [typeExpr, (Typing.binary_erased ..).1, Expr.isName]
  | unary note op operand =>
      refine callable_of_erased ?_
      simp only [typeExpr, (Typing.unary_erased ..).1, Expr.isName]
  | assign note op target value =>
      refine callable_of_erased ?_
      simp only [typeExpr, (Typing.assign_erased ..).1, Expr.isName]
  | call note callee args =>
      refine callable_of_erased ?_
      simp only [typeExpr, (typeCall_erased ..).1, Expr.isName]
  | cast note kind operand => exact absurd fresh (Expr.not_fresh_cast _)

/-- A node that typing gives a type obeys its rule. -/
theorem typeExpr_checked (e : Expr) (fresh : e.Fresh) (typed : (ledger.typeExpr e).node.ty.isSome) :
    (ledger.typeExpr e).node.Checked ledger := by
  induction e with
  | bool | int | double => rfl
  | name note identifier binding => exact typeName_checked _ _ _ typed
  | binary note op left right => exact Typing.binary_checked _ op _ _ typed
  | unary note op operand inner =>
      exact Typing.unary_checked _ op _ (inner ((Expr.fresh_unary _).mp fresh).1) typed
  | assign note op target value => exact Typing.assign_checked _ op _ _ typed
  | call note callee args => exact typeCall_checked _ _ _ typed
  | cast note kind operand => exact absurd fresh (Expr.not_fresh_cast _)

/-- An expression is left without a type exactly when something is reported in it. -/
theorem typeExpr_untyped (e : Expr) (fresh : e.Fresh) :
    (ledger.typeExpr e).node.ty = none ↔ (ledger.typeExpr e).diagnostics ≠ [] := by
  have split : ∀ first second : List Diagnostic, first ++ second ≠ [] ↔
    first ≠ [] ∨ second ≠ [] := by
    intro first second
    simp only [ne_eq, List.append_eq_nil_iff, Classical.not_and_iff_not_or_not]
  induction e with
  | bool | int | double => simp [typeExpr]
  | name note identifier binding => exact typeName_untyped ..
  | binary note op left right first second =>
      rcases (Expr.fresh_binary _).mp fresh with ⟨leftFresh, rightFresh, _⟩
      simp only [typeExpr, Typing.binary_untyped, split, first leftFresh,
        second rightFresh, or_assoc]
  | unary note op operand inner =>
      rcases (Expr.fresh_unary _).mp fresh with ⟨operandFresh, _⟩
      simp only [typeExpr, Typing.unary_untyped, split, inner operandFresh]
  | assign note op target value first second =>
      rcases (Expr.fresh_assign _).mp fresh with ⟨valueFresh, targetFresh, _⟩
      have own : (ledger.typeExpr target).node.ty.isSome →
        (ledger.typeExpr target).node.Checked ledger :=
        typeExpr_checked target targetFresh
      simp only [typeExpr, Typing.assign_untyped _ _ _ _ own, split, first targetFresh,
        second valueFresh]
      rw [or_assoc, or_left_comm]
  | call note callee args target inner =>
      rcases (Expr.fresh_call _).mp fresh with ⟨argsFresh, calleeFresh, _⟩
      have own : (ledger.typeExpr callee).node.ty.isSome →
        (ledger.typeExpr callee).node.Checked ledger :=
        typeExpr_checked callee calleeFresh
      have callable : ledger.Callable (ledger.typeExpr callee).node :=
        typeExpr_callable callee calleeFresh
      have missing : (∃ arg ∈ (ledger.typeArgs args).node, arg.ty = none) ↔
          (ledger.typeArgs args).diagnostics ≠ [] := by
        simp only [typeArgs_eq, List.mem_map, ne_eq, List.flatMap_eq_nil_iff, Classical.not_forall,
          exists_prop]
        constructor
        · rintro ⟨_, ⟨arg, member, rfl⟩, untyped⟩
          exact ⟨arg, member, (inner arg member (argsFresh arg member)).mp untyped⟩
        · rintro ⟨arg, member, reported⟩
          exact ⟨_, ⟨arg, member, rfl⟩, (inner arg member (argsFresh arg member)).mpr reported⟩
      simp only [typeExpr, typeCall_untyped _ _ _ own callable, missing, split, target calleeFresh]
      rw [or_assoc, or_left_comm]
  | cast note kind operand => exact absurd fresh (Expr.not_fresh_cast _)

/-- Typing keeps the nodes of an expression, in order, and every node it adds is a conversion. -/
structure Derived (ledger : Ledger) (e : Expr) : Prop where
  originals : (ledger.typeExpr e).node.originals = e.nodes.map fun sub => (ledger.typeExpr sub).node
  casts : ∀ node ∈ (ledger.typeExpr e).node.nodes, node.isCast → node.Converts

theorem derived_leaf {e : Expr} (leaf : e.nodes = [e])
    (typed : (ledger.typeExpr e).node.nodes = [(ledger.typeExpr e).node])
    (plain : (ledger.typeExpr e).node.isCast = false) : ledger.Derived e := by
  constructor
  · simp [Expr.originals, leaf, typed, plain]
  · intro node member cast
    rw [typed] at member
    rw [List.mem_singleton.mp member, plain] at cast
    cases cast

theorem derived_whole {e : Expr} (parts : List Expr)
    (shape : e.nodes = parts.flatMap Expr.nodes ++ [e])
    (made : (ledger.typeExpr e).node.MadeOf (parts.map fun part => (ledger.typeExpr part).node))
    (derived : ∀ part ∈ parts, ledger.Derived part) : ledger.Derived e := by
  constructor
  · have inside : parts.flatMap (fun part => (ledger.typeExpr part).node.originals) =
        (parts.flatMap Expr.nodes).map fun sub => (ledger.typeExpr sub).node := by
      rw [List.map_flatMap, List.flatMap_def, List.flatMap_def]
      exact congrArg List.flatten (List.map_congr_left fun part member =>
        (derived part member).originals)
    rw [made.originals, shape, List.map_append, List.flatMap_map, inside]
    rfl
  · intro node member cast
    rcases made.casts node member cast with ⟨operand, among, within⟩ | converts
    · rcases List.mem_map.mp among with ⟨part, chosen, rfl⟩
      exact (derived part chosen).casts node within cast
    · exact converts

theorem typeExpr_derived (e : Expr) (fresh : e.Fresh) : ledger.Derived e := by
  induction e with
  | bool | int | double => exact derived_leaf rfl rfl rfl
  | name note identifier binding =>
      have single : (ledger.typeName note.line identifier binding).node.nodes =
          [(ledger.typeName note.line identifier binding).node] := by
        unfold typeName
        split <;> rfl
      have plain : (ledger.typeName note.line identifier binding).node.isCast = false := by
        unfold typeName
        split <;> rfl
      exact derived_leaf rfl single plain
  | binary note op left right first second =>
      rcases (Expr.fresh_binary _).mp fresh with ⟨leftFresh, rightFresh, _⟩
      refine derived_whole [left, right] (by simp [Expr.nodes]) (Typing.binary_madeOf ..) ?_
      exact List.forall_mem_cons.mpr
        ⟨first leftFresh, List.forall_mem_singleton.mpr (second rightFresh)⟩
  | unary note op operand inner =>
      rcases (Expr.fresh_unary _).mp fresh with ⟨operandFresh, _⟩
      refine derived_whole [operand] (by simp [Expr.nodes]) (Typing.unary_madeOf ..) ?_
      exact List.forall_mem_singleton.mpr (inner operandFresh)
  | assign note op target value first second =>
      rcases (Expr.fresh_assign _).mp fresh with ⟨valueFresh, targetFresh, _⟩
      refine derived_whole [value, target] (by simp [Expr.nodes]) (Typing.assign_madeOf ..) ?_
      exact List.forall_mem_cons.mpr
        ⟨second valueFresh, List.forall_mem_singleton.mpr (first targetFresh)⟩
  | call note callee args target inner =>
      rcases (Expr.fresh_call _).mp fresh with ⟨argsFresh, calleeFresh, _⟩
      have made :=
        ledger.typeCall_madeOf note.line (ledger.typeExpr callee).node (ledger.typeArgs args).node
      rw [typeArgs_eq] at made
      have whole : (ledger.typeExpr (.call note callee args)).node.MadeOf
          ((args ++ [callee]).map fun part => (ledger.typeExpr part).node) := by
        rw [typeExpr, typeArgs_eq, List.map_append]
        exact made
      refine derived_whole (args ++ [callee]) (by simp [Expr.nodes, List.flatMap_append]) whole ?_
      refine List.forall_mem_append.mpr
        ⟨fun arg member => inner arg member (argsFresh arg member), ?_⟩
      exact List.forall_mem_singleton.mpr (target calleeFresh)
  | cast note kind operand => exact absurd fresh (Expr.not_fresh_cast _)

theorem typeExpr_nodes (e : Expr) (fresh : e.Fresh) :
    ∀ node ∈ (ledger.typeExpr e).node.nodes,
      (∃ sub ∈ e.nodes, (ledger.typeExpr sub).node = node) ∨ node.Converts := by
  have derived : ledger.Derived e := typeExpr_derived e fresh
  intro node member
  by_cases cast : node.isCast = true
  · exact .inr (derived.casts node member cast)
  · have original : node ∈ (ledger.typeExpr e).node.originals :=
      List.mem_filter.mpr ⟨member, by simpa using cast⟩
    rw [derived.originals] at original
    exact .inl (List.mem_map.mp original)

theorem typeExpr_clean (e : Expr) (clean : (ledger.typeExpr e).diagnostics = []) :
    ∀ sub ∈ e.nodes, (ledger.typeExpr sub).diagnostics = [] := by
  induction e with
  | bool | int | double | name =>
      intro sub member
      rw [List.mem_singleton.mp member]
      exact clean
  | binary note op left right first second =>
      refine Expr.forall_nodes_binary.mpr ⟨?_, clean⟩
      simp only [typeExpr, List.append_eq_nil_iff] at clean
      exact ⟨first clean.1.1, second clean.1.2⟩
  | unary note op operand inner =>
      refine Expr.forall_nodes_unary.mpr ⟨?_, clean⟩
      simp only [typeExpr, List.append_eq_nil_iff] at clean
      exact inner clean.1
  | assign note op target value first second =>
      refine Expr.forall_nodes_assign.mpr ⟨?_, clean⟩
      simp only [typeExpr, List.append_eq_nil_iff] at clean
      exact ⟨second clean.1.1, first clean.1.2⟩
  | call note callee args target inner =>
      refine Expr.forall_nodes_call.mpr ⟨?_, clean⟩
      simp only [typeExpr, typeArgs_eq, List.append_eq_nil_iff, List.flatMap_eq_nil_iff] at clean
      exact ⟨fun arg member => inner arg member (clean.1.1 arg member), target clean.1.2⟩
  | cast note kind operand inner => exact Expr.forall_nodes_cast.mpr ⟨inner clean, clean⟩

/-- Whatever is wrong with a fresh expression, every node that typing gives a type obeys its
rule. -/
theorem typeExpr_elaborated (e : Expr) (fresh : e.Fresh) :
    (ledger.typeExpr e).node.Elaborated ledger := by
  intro node member typed
  rcases typeExpr_nodes e fresh node member with ⟨sub, inside, rfl⟩ | converts
  · exact typeExpr_checked sub (Expr.fresh_within fresh inside) typed
  · exact Expr.converts_checked converts

/-- Typing a fresh expression without a report gives it a type and makes every node obey its
rule. -/
theorem typeExpr_sound (e : Expr) (fresh : e.Fresh) (clean : (ledger.typeExpr e).diagnostics = []) :
    ∃ ty, (ledger.typeExpr e).node.Sound ledger ty := by
  have typed : ∀ sub ∈ e.nodes, (ledger.typeExpr sub).node.ty.isSome := by
    intro sub inside
    have unreported := typeExpr_clean e clean sub inside
    rw [Option.isSome_iff_ne_none]
    exact fun untyped =>
      (typeExpr_untyped sub (Expr.fresh_within fresh inside)).mp untyped unreported
  rcases Option.isSome_iff_exists.mp (typed e e.self_mem_nodes) with ⟨ty, known⟩
  refine ⟨ty, fun node member => ?_, known⟩
  rcases typeExpr_nodes e fresh node member with ⟨sub, inside, rfl⟩ | converts
  · exact typeExpr_checked sub (Expr.fresh_within fresh inside) (typed sub inside)
  · exact Expr.converts_checked converts

end Ledger
end StackCompiler
