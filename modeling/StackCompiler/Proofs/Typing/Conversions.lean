import StackCompiler.Proofs.Typing.Annotation
import StackCompiler.Proofs.Typing.Elaboration

/-!
Where conversions stand.

What an operand needs is decided by its own type and by the place it has: beside another operand, as
the value of an assignment, as an argument or as an initializer. Typing puts exactly the casts there
that are needed, also next to nodes that were reported, and no cast anywhere else.
-/
namespace StackCompiler

namespace Expr

def uncast : Expr → Expr
  | cast _ _ operand => operand
  | e => e

def cast? : Expr → Option Cast
  | cast _ kind _ => some kind
  | _ => none

def conversion? (e : Expr) (expected : Ty) : Option Cast := e.ty.bind (Cast.between? · expected)

def variableTy? : Expr → Option Ty
  | name note _ (some (.variable _)) => note.ty
  | _ => none

end Expr

/-- The conversion of an operand that stands beside another one. Connectives take no numbers. -/
def BinaryOp.widening? (op : BinaryOp) (operand other : Option Ty) : Option Cast :=
  match op with
  | .arith _ | .compare _ =>
      if operand = some .int ∧ other = some .double then some .intToDouble else none
  | .logic _ => none

/-- An operand of a node and the conversion it needs there. -/
structure Seat where
  operand : Expr
  needed : Option Cast

def Seat.Exact (seat : Seat) : Prop := seat.operand.cast? = seat.needed

namespace Ledger

def parameters? (ledger : Ledger) : Expr → Option (List Ty)
  | .name _ _ (some (.function id)) => (ledger.functionAt? id).map FunctionEntry.params
  | _ => none

/-- What is expected of the given number of arguments: the types of the parameters if there are as
many of them. -/
def expected (ledger : Ledger) (callee : Expr) (count : Nat) : List (Option Ty) :=
  match ledger.parameters? callee with
  | some params => if count = params.length then params.map some else List.replicate count none
  | none => List.replicate count none

def seats (ledger : Ledger) : Expr → List Seat
  | .bool .. | .int .. | .double .. | .name .. => []
  | .binary _ op left right =>
      [⟨left, op.widening? left.uncast.ty right.uncast.ty⟩,
        ⟨right, op.widening? right.uncast.ty left.uncast.ty⟩]
  | .unary _ _ operand | .cast _ _ operand => [⟨operand, none⟩]
  | .assign _ _ target value =>
      [⟨target, none⟩, ⟨value, target.variableTy?.bind value.uncast.conversion?⟩]
  | .call _ callee args =>
      ⟨callee, none⟩ ::
        args.zipWith (fun arg ty => ⟨arg, ty.bind arg.uncast.conversion?⟩)
          (ledger.expected callee args.length)

end Ledger

/-- Every operand has the conversion that it needs, and no other one. -/
def Expr.Converted (ledger : Ledger) (e : Expr) : Prop :=
  ∀ node ∈ e.nodes, ∀ seat ∈ ledger.seats node, seat.Exact

/-- An expression that is converted inside and has no cast around it. -/
structure Expr.Uncoerced (ledger : Ledger) (e : Expr) : Prop where
  converted : e.Converted ledger
  plain : e.cast? = none

/-! Casts around an expression. -/

theorem Cast.between?_same (ty : Ty) : between? ty ty = none := by
  cases ty <;> rfl

theorem Cast.between?_numeric {source target : Ty} (other : target.isNumeric = false) :
    between? source target = none := by
  cases target with
  | boolean => cases source <;> rfl
  | int | double => cases other

namespace Expr

def wrapped (e : Expr) : Option Cast → Expr
  | none => e
  | some kind => e.convert kind

def adapted (args : List Expr) (types : List (Option Ty)) : List Expr :=
  args.zipWith (fun arg ty => arg.wrapped (ty.bind arg.conversion?)) types

variable {e : Expr} {ledger : Ledger} {source ty : Ty}

theorem uncast_plain (plain : e.cast? = none) : e.uncast = e := by
  cases e with
  | cast => cases plain
  | _ => rfl

theorem cast?_wrapped (plain : e.cast? = none) (needed : Option Cast) :
    (e.wrapped needed).cast? = needed := by
  cases needed with
  | none => exact plain
  | some kind => rfl

theorem uncast_wrapped (plain : e.cast? = none) (needed : Option Cast) :
    (e.wrapped needed).uncast = e := by
  cases needed with
  | none => exact uncast_plain plain
  | some kind => rfl

theorem converted_wrapped (own : e.Uncoerced ledger) (needed : Option Cast) :
    (e.wrapped needed).Converted ledger := by
  cases needed with
  | none => exact own.converted
  | some kind =>
      exact forall_nodes_cast.mpr ⟨own.converted, List.forall_mem_singleton.mpr own.plain⟩

theorem widenIf_wrapped (e : Expr) (widen : Bool) :
    e.widenIf widen = e.wrapped (if widen then some .intToDouble else none) := by
  cases widen <;> rfl

theorem coerce_wrapped {coercion : Coercion} (typed : e.ty = some source)
    (coerced : Coercion.into? source ty = some coercion) :
    e.coerce coercion = e.wrapped (e.conversion? ty) := by
  rw [conversion?, typed, Option.bind_some]
  cases coercion with
  | identity =>
      rw [into?_identity coerced, Cast.between?_same]
      rfl
  | convert kind =>
      rw [Cast.between?_eq_some_iff.mpr (into?_convert coerced)]
      rfl

theorem adapted_cons (arg : Expr) (args : List Expr) (ty : Option Ty) (types : List (Option Ty)) :
    adapted (arg :: args) (ty :: types) =
      arg.wrapped (ty.bind arg.conversion?) :: adapted args types := rfl

theorem adapted_nothing (args : List Expr) :
    adapted args (List.replicate args.length none) = args := by
  induction args with
  | nil => rfl
  | cons arg rest ih => exact congrArg (arg :: ·) ih

theorem conversion?_refused (typed : e.ty = some source)
    (refused : Coercion.into? source ty = none) :
    e.conversion? ty = none := by
  rw [conversion?, typed, Option.bind_some]
  unfold Coercion.into? at refused
  split at refused
  · cases refused
  · exact Option.map_eq_none_iff.mp refused

theorem conversion?_untyped (untyped : e.ty = none) : e.conversion? ty = none := by
  rw [conversion?, untyped, Option.bind_none]

end Expr

theorem Promotion.of?_widens {left right : Ty} {promotion : Promotion}
    (promoted : of? left right = some promotion) :
    (promotion.widenLeft = true ↔ left = .int ∧ right = .double) ∧
      (promotion.widenRight = true ↔ right = .int ∧ left = .double) := by
  cases left <;> cases right <;> cases promoted <;> decide

theorem Promotion.of?_none {left right : Ty} (unpromoted : of? left right = none) :
    left = .boolean ∨ right = .boolean := by
  cases left <;> cases right <;> cases unpromoted <;> decide

namespace BinaryOp
variable {op : BinaryOp} {left right : Ty}

theorem widening?_untyped (op : BinaryOp) (other : Option Ty) :
    op.widening? none other = none ∧ op.widening? other none = none := by
  cases op <;> simp [widening?]

theorem widening?_boolean (op : BinaryOp) (other : Option Ty) :
    op.widening? (some .boolean) other = none ∧ op.widening? other (some .boolean) = none := by
  cases op <;> simp [widening?]

theorem widening?_single (op : BinaryOp) (left right : Option Ty) :
    op.widening? left right = none ∨ op.widening? right left = none := by
  by_cases int : left = some .int
  · cases op <;> simp [widening?, int]
  · cases op <;> simp [widening?, int]

theorem typing?_widens {typing : BinaryTyping} (typed : op.typing? left right = some typing) :
    (if typing.widenLeft then some .intToDouble else none) =
      op.widening? (some left) (some right) ∧
      (if typing.widenRight then some .intToDouble else none) =
        op.widening? (some right) (some left) := by
  cases op with
  | arith op =>
      rcases Option.map_eq_some_iff.mp typed with ⟨promotion, promoted, rfl⟩
      simp only [Promotion.typing, Promotion.of?_widens promoted, widening?,
        Option.some.injEq, and_self]
  | compare op =>
      simp only [typing?] at typed
      split at typed
      · rename_i booleans
        rcases booleans with ⟨_, rfl, rfl⟩
        cases typed
        exact ⟨rfl, rfl⟩
      · rcases Option.map_eq_some_iff.mp typed with ⟨promotion, promoted, rfl⟩
        simp only [Promotion.typing, Promotion.of?_widens promoted, widening?,
          Option.some.injEq, and_self]
  | logic op =>
      simp only [typing?] at typed
      split at typed
      · cases typed
        exact ⟨rfl, rfl⟩
      · cases typed

theorem typing?_refused (refused : op.typing? left right = none) :
    op.widening? (some left) (some right) = none ∧
      op.widening? (some right) (some left) = none := by
  have booleans : left = .boolean ∨ right = .boolean →
    op.widening? (some left) (some right) = none ∧
      op.widening? (some right) (some left) = none := by
    rintro (rfl | rfl)
    · exact widening?_boolean op (some right)
    · exact (widening?_boolean op (some left)).symm
  cases op with
  | arith op => exact booleans (Promotion.of?_none (Option.map_eq_none_iff.mp refused))
  | compare op =>
      simp only [typing?] at refused
      split at refused
      · cases refused
      · exact booleans (Promotion.of?_none (Option.map_eq_none_iff.mp refused))
  | logic op => exact ⟨rfl, rfl⟩

end BinaryOp

/-! The rules one by one: every operand is left with the conversion that it needs around it. -/

namespace Typing
variable (line : Nat)

theorem binary_wraps (op : BinaryOp) (left right : Expr) :
    ∃ ty, (binary line op left right).node = .binary ⟨line, ty⟩ op
      (left.wrapped (op.widening? left.ty right.ty))
      (right.wrapped (op.widening? right.ty left.ty)) := by
  unfold binary
  split
  · rename_i leftTy rightTy leftTyped rightTyped
    rw [leftTyped, rightTyped]
    split
    · rename_i typing found
      rcases BinaryOp.typing?_widens found with ⟨first, second⟩
      exact ⟨_, by rw [Expr.widenIf_wrapped, Expr.widenIf_wrapped, first, second]⟩
    · rename_i refused
      rcases BinaryOp.typing?_refused refused with ⟨first, second⟩
      exact ⟨none, by rw [first, second]; rfl⟩
  · rename_i untyped
    have unwidened : op.widening? left.ty right.ty = none ∧
      op.widening? right.ty left.ty = none := by
      cases leftTyped : left.ty with
      | none => exact op.widening?_untyped _
      | some leftTy =>
          cases rightTyped : right.ty with
          | none => exact (op.widening?_untyped _).symm
          | some rightTy => exact absurd rightTyped (untyped leftTy rightTy leftTyped)
    exact ⟨none, by rw [unwidened.1, unwidened.2]; rfl⟩

theorem unary_keeps (op : UnaryOp) (operand : Expr) :
    ∃ ty, (unary line op operand).node = .unary ⟨line, ty⟩ op operand := by
  unfold unary
  split
  · exact ⟨none, rfl⟩
  · exact ⟨none, rfl⟩
  · rename_i ty _ _
    by_cases admitted : op.admits ty
    · exact ⟨some ty, by rw [if_pos admitted]⟩
    · exact ⟨none, by rw [if_neg admitted]⟩

theorem assign_wraps (op : AssignOp) (target value : Expr) :
    ∃ ty, (assign line op target value).node = .assign ⟨line, ty⟩ op target
      (value.wrapped (target.variableTy?.bind value.conversion?)) := by
  unfold assign
  split
  · rename_i note identifier id
    change ∃ ty, _ =
      Expr.assign ⟨line, ty⟩ op _ (value.wrapped (note.ty.bind value.conversion?))
    split
    · rename_i targetTy valueTy targetTyped valueTyped
      rw [targetTyped, Option.bind_some]
      split
      -- A compound assignment to another target is reported; a conversion to that type does not
      -- exist either.
      · rename_i compound
        have other : targetTy.isNumeric = false := by
          simp only [Bool.and_eq_true, Bool.not_eq_true'] at compound
          exact compound.2
        have unneeded : value.conversion? targetTy = none := by
          rw [Expr.conversion?, valueTyped, Option.bind_some, Cast.between?_numeric other]
        exact ⟨none, by rw [unneeded]; rfl⟩
      · split
        · rename_i coercion coerced
          exact ⟨_, by rw [Expr.coerce_wrapped valueTyped coerced]⟩
        · rename_i refused
          exact ⟨none, by rw [Expr.conversion?_refused valueTyped refused]; rfl⟩
    · rename_i untyped
      cases targetTyped : note.ty with
      | none => exact ⟨none, rfl⟩
      | some targetTy =>
          cases valueTyped : value.ty with
          | none =>
              exact ⟨none, by rw [Option.bind_some, Expr.conversion?_untyped valueTyped]; rfl⟩
          | some valueTy => exact absurd valueTyped (untyped targetTy valueTy targetTyped)
  · exact ⟨none, rfl⟩
  · rename_i other _
    have unneeded : target.variableTy? = none := by
      unfold Expr.variableTy?
      split
      · exact absurd rfl (other _ _ _)
      · rfl
    exact ⟨none, by rw [unneeded]; rfl⟩

theorem arguments_wraps (callee : String) (position : Nat) (types : List Ty) (args : List Expr)
    (same : args.length = types.length) :
    (arguments line callee position types args).node = Expr.adapted args (types.map some) := by
  induction types generalizing position args with
  | nil =>
      cases args with
      | nil => rfl
      | cons arg args => cases same
  | cons required types ih =>
      cases args with
      | nil => cases same
      | cons arg args =>
          have rest := ih (position + 1) args (Nat.succ.inj same)
          unfold arguments
          rw [List.map_cons, Expr.adapted_cons, ← rest, Option.bind_some]
          dsimp only
          split
          · rename_i untyped
            rw [Expr.conversion?_untyped untyped]
            rfl
          · rename_i passed typed
            split
            · rename_i coercion coerced
              rw [Expr.coerce_wrapped typed coerced]
            · rename_i refused
              rw [Expr.conversion?_refused typed refused]
              rfl

end Typing

theorem Analysis.coerceInit_wraps (line : Nat) (declared : Ty) (init : Expr) :
    (coerceInit line declared init).node = init.wrapped (init.conversion? declared) := by
  unfold coerceInit
  split
  · rename_i untyped
    rw [Expr.conversion?_untyped untyped]
    rfl
  · rename_i value typed
    split
    · rename_i coercion coerced
      rw [Expr.coerce_wrapped typed coerced]
    · rename_i refused
      rw [Expr.conversion?_refused typed refused]
      rfl

namespace Ledger
variable {ledger : Ledger} (line : Nat)

theorem expected_length (ledger : Ledger) (callee : Expr) (count : Nat) :
    (ledger.expected callee count).length = count := by
  unfold expected
  split
  · split
    · rename_i same
      rw [List.length_map, same]
    · exact List.length_replicate
  · exact List.length_replicate

theorem typeCall_wraps (callee : Expr) (args : List Expr) :
    ∃ ty, (ledger.typeCall line callee args).node =
      .call ⟨line, ty⟩ callee (Expr.adapted args (ledger.expected callee args.length)) := by
  unfold typeCall
  split
  · rename_i note identifier id
    cases known : ledger.functionAt? id with
    | none =>
        exact ⟨none, by simp only [expected, parameters?, known, Option.map_none,
          Expr.adapted_nothing]⟩
    | some entry =>
        simp only [expected, parameters?, known, Option.map_some]
        by_cases same : args.length = entry.params.length
        · rw [Typing.callOf, if_neg (not_not_intro same), if_pos same]
          exact ⟨_, by rw [← Typing.arguments_wraps _ entry.name 1 _ _ same]⟩
        · exact ⟨none, by rw [Typing.callOf, if_pos same, if_neg same, Expr.adapted_nothing]⟩
  · exact ⟨none, by simp only [expected, parameters?, Expr.adapted_nothing]⟩
  · exact ⟨none, by simp only [expected, parameters?, Expr.adapted_nothing]⟩
  · rename_i other _ _
    have unknown : ledger.parameters? callee = none := by
      unfold parameters?
      split
      · exact absurd rfl (other _ _ _)
      · rfl
    exact ⟨none, by simp only [expected, unknown, Expr.adapted_nothing]⟩

end Ledger

/-! Whole expressions. -/

namespace Expr
variable {ledger : Ledger} (note : Note)

theorem uncoerced_leaf {e : Expr} (leaf : e.nodes = [e]) (bare : ledger.seats e = [])
    (plain : e.cast? = none) :
    e.Uncoerced ledger := by
  refine ⟨fun node member seat seated => ?_, plain⟩
  rw [leaf] at member
  rw [List.mem_singleton.mp member, bare] at seated
  cases seated

theorem uncoerced_binary (op : BinaryOp) {left right : Expr} (first : left.Uncoerced ledger)
    (second : right.Uncoerced ledger) :
    (binary note op (left.wrapped (op.widening? left.ty right.ty))
      (right.wrapped (op.widening? right.ty left.ty))).Uncoerced ledger := by
  refine ⟨forall_nodes_binary.mpr
    ⟨⟨converted_wrapped first _, converted_wrapped second _⟩, ?_⟩, rfl⟩
  simp only [Ledger.seats, uncast_wrapped first.plain, uncast_wrapped second.plain]
  exact List.forall_mem_cons.mpr
    ⟨cast?_wrapped first.plain _, List.forall_mem_singleton.mpr (cast?_wrapped second.plain _)⟩

theorem uncoerced_unary (op : UnaryOp) {operand : Expr} (own : operand.Uncoerced ledger) :
    (unary note op operand).Uncoerced ledger :=
  ⟨forall_nodes_unary.mpr ⟨own.converted, List.forall_mem_singleton.mpr own.plain⟩, rfl⟩

theorem uncoerced_assign (op : AssignOp) {target value : Expr} (first : value.Uncoerced ledger)
    (second : target.Uncoerced ledger) :
    (assign note op target (value.wrapped (target.variableTy?.bind value.conversion?))).Uncoerced
      ledger := by
  refine ⟨forall_nodes_assign.mpr ⟨⟨converted_wrapped first _, second.converted⟩, ?_⟩, rfl⟩
  simp only [Ledger.seats, uncast_wrapped first.plain]
  exact List.forall_mem_cons.mpr
    ⟨second.plain, List.forall_mem_singleton.mpr (cast?_wrapped first.plain _)⟩

/-- Arguments that were converted to what is expected of them need no other conversion. -/
theorem adapted_exact (types : List (Option Ty)) (args : List Expr)
    (own : ∀ arg ∈ args, arg.Uncoerced ledger) :
    (∀ arg ∈ adapted args types, arg.Converted ledger) ∧
      ∀ seat ∈ (adapted args types).zipWith
        (fun arg ty => Seat.mk arg (ty.bind arg.uncast.conversion?)) types,
        seat.Exact := by
  induction args generalizing types with
  | nil => constructor <;> (intro _ member; cases member)
  | cons arg rest ih =>
      cases types with
      | nil => constructor <;> (intro _ member; cases member)
      | cons required types =>
          rcases List.forall_mem_cons.mp own with ⟨here, others⟩
          rcases ih types others with ⟨converted, exact⟩
          rw [adapted_cons, List.zipWith_cons_cons]
          refine ⟨List.forall_mem_cons.mpr ⟨converted_wrapped here _, converted⟩,
            List.forall_mem_cons.mpr ⟨?_, exact⟩⟩
          rw [Seat.Exact, uncast_wrapped here.plain]
          exact cast?_wrapped here.plain _

theorem uncoerced_call {callee : Expr} {args : List Expr} (target : callee.Uncoerced ledger)
    (own : ∀ arg ∈ args, arg.Uncoerced ledger) :
    (call note callee (adapted args (ledger.expected callee args.length))).Uncoerced ledger := by
  rcases adapted_exact (ledger.expected callee args.length) args own with ⟨converted, exact⟩
  have same : (adapted args (ledger.expected callee args.length)).length = args.length := by
    rw [adapted, List.length_zipWith, Ledger.expected_length, Nat.min_self]
  refine ⟨forall_nodes_call.mpr ⟨⟨converted, target.converted⟩, ?_⟩, rfl⟩
  simp only [Ledger.seats, same]
  exact List.forall_mem_cons.mpr ⟨target.plain, exact⟩

end Expr

namespace Ledger
variable {ledger : Ledger}

/-- Whatever is wrong with an expression, typing converts every operand as needed and puts no cast
around the whole. -/
theorem typeExpr_uncoerced (e : Expr) (fresh : e.Fresh) :
    (ledger.typeExpr e).node.Uncoerced ledger := by
  induction e with
  | bool | int | double => exact Expr.uncoerced_leaf rfl rfl rfl
  | name note identifier binding =>
      unfold typeExpr typeName
      split <;> exact Expr.uncoerced_leaf rfl rfl rfl
  | binary note op left right first second =>
      rcases (Expr.fresh_binary _).mp fresh with ⟨leftFresh, rightFresh, _⟩
      rcases Typing.binary_wraps note.line op (ledger.typeExpr left).node
        (ledger.typeExpr right).node with ⟨ty, wraps⟩
      simp only [typeExpr, wraps]
      exact Expr.uncoerced_binary _ op (first leftFresh) (second rightFresh)
  | unary note op operand inner =>
      rcases Typing.unary_keeps note.line op (ledger.typeExpr operand).node with ⟨ty, keeps⟩
      simp only [typeExpr, keeps]
      exact Expr.uncoerced_unary _ op (inner ((Expr.fresh_unary _).mp fresh).1)
  | assign note op target value first second =>
      rcases (Expr.fresh_assign _).mp fresh with ⟨valueFresh, targetFresh, _⟩
      rcases Typing.assign_wraps note.line op (ledger.typeExpr target).node
        (ledger.typeExpr value).node with
        ⟨ty, wraps⟩
      simp only [typeExpr, wraps]
      exact Expr.uncoerced_assign _ op (second valueFresh) (first targetFresh)
  | call note callee args target inner =>
      rcases (Expr.fresh_call _).mp fresh with ⟨argsFresh, calleeFresh, _⟩
      rcases ledger.typeCall_wraps note.line (ledger.typeExpr callee).node
        (ledger.typeArgs args).node with ⟨ty, wraps⟩
      simp only [typeExpr, wraps]
      refine Expr.uncoerced_call _ (target calleeFresh) ?_
      rw [typeArgs_eq]
      exact List.forall_mem_map.mpr fun arg member => inner arg member (argsFresh arg member)
  | cast note kind operand => exact absurd fresh (Expr.not_fresh_cast _)

end Ledger

theorem Ledger.typeExpr_alone {ledger : Ledger} (e : Expr) (fresh : e.Fresh) :
    ∀ node ∈ (ledger.typeExpr e).node.nodes, node.cast? = none →
      (ledger.typeExpr node.bare).node = node := by
  intro node member plain
  rcases typeExpr_nodes e fresh node member with ⟨sub, inside, rfl⟩ | ⟨kind, operand, rfl, _⟩
  · rw [typeExpr_bare, sub.bare_fresh (Expr.fresh_within fresh inside)]
  · cases plain

/-- At most one operand of a node is converted. -/
theorem Expr.converted_single {ledger : Ledger} {e : Expr} (converted : e.Converted ledger) :
    ∀ note op left right, binary note op left right ∈ e.nodes → left.cast? = none ∨
      right.cast? = none := by
  intro note op left right member
  rcases List.forall_mem_cons.mp (converted _ member) with ⟨first, others⟩
  have second := others _ List.mem_cons_self
  simp only [Seat.Exact] at first second
  rw [first, second]
  exact op.widening?_single _ _

theorem Expr.converted_later {later ledger : Ledger} (extension : later.Extends ledger) {e : Expr}
    (converted : e.Converted ledger) : e.Converted later := by
  -- What a node needs depends on the functions only, and all of them are known before.
  have parameters : later.parameters? = ledger.parameters? := by
    funext callee
    unfold Ledger.parameters? Ledger.functionAt?
    rw [extension.functions]
  have same : later.seats = ledger.seats := by
    funext node
    unfold Ledger.seats Ledger.expected
    rw [parameters]
  intro node member
  rw [same]
  exact converted node member

/-! Statements, functions and items. -/

/-- The conversion that the expression of a statement needs. Only an initializer whose variable was
accepted is expected to have a type. -/
def Stmt.needed? : Stmt → Option Cast
  | declare _ ⟨_, ty, some init, some _⟩ => init.uncast.conversion? ty
  | _ => none

/-- A statement that was visited at the moment of some ledger, and converted where that was
needed. -/
structure Stmt.Converted (ledger : Ledger) (s : Stmt) : Prop where
  operands : ∀ root ∈ s.root?, root.Converted ledger
  single :
    ∀ root ∈ s.root?, ∀ note op left right, .binary note op left right ∈ root.nodes →
    left.cast? = none ∨ right.cast? = none
  whole : ∀ root ∈ s.root?, root.cast? = s.needed?
  alone : ∃ moment, ledger.Extends moment ∧
    ∀ root ∈ s.root?, ∀ node ∈ root.nodes, node.cast? = none →
    (moment.typeExpr node.bare).node = node

/-- The body of a function that was given no id is not visited. -/
def Function.Converted (ledger : Ledger) (f : Function) : Prop :=
  ∀ s ∈ f.stmts, if f.id.isSome then s.Converted ledger else s.Fresh

def Item.Converted (ledger : Ledger) : Item → Prop
  | function f => f.Converted ledger
  | stmt s => s.Converted ledger

section
variable {later ledger : Ledger} (extension : later.Extends ledger)
include extension

theorem Stmt.converted_later {s : Stmt} (converted : s.Converted ledger) : s.Converted later where
  operands root holds := Expr.converted_later extension (converted.operands root holds)
  single := converted.single
  whole := converted.whole
  alone := by
    rcases converted.alone with ⟨moment, growing, same⟩
    exact ⟨moment, Ledger.extends_through extension growing, same⟩

theorem Item.converted_later {item : Item} (converted : item.Converted ledger) :
    item.Converted later := by
  cases item with
  | stmt s => exact Stmt.converted_later extension converted
  | function f =>
      intro s member
      have own := converted s member
      by_cases given : f.id.isSome
      · rw [if_pos given] at own ⊢
        exact Stmt.converted_later extension own
      · rw [if_neg given] at own ⊢
        exact own

end

namespace Stmt
variable {ledger : Ledger} {s : Stmt}

theorem converted_empty (ledger : Ledger) (empty : s.root? = none) : s.Converted ledger := by
  constructor <;> simp only [empty, Option.mem_def, reduceCtorEq, false_implies, implies_true]
  exact ⟨ledger, ledger.extends_same, trivial⟩

theorem converted_typed {moment : Ledger} (extension : ledger.Extends moment) {e : Expr}
    (fresh : e.Fresh) (shape : s.root? = some ((moment.typeExpr e).node.wrapped s.needed?)) :
    s.Converted ledger := by
  have own : (moment.typeExpr e).node.Uncoerced moment := moment.typeExpr_uncoerced e fresh
  have inside := Expr.converted_later extension (Expr.converted_wrapped own s.needed?)
  constructor
  · rw [shape]
    rintro root ⟨⟩
    exact inside
  · rw [shape]
    rintro root ⟨⟩
    exact Expr.converted_single inside
  · rw [shape]
    rintro root ⟨⟩
    exact Expr.cast?_wrapped own.plain _
  · refine ⟨moment, extension, ?_⟩
    rw [shape]
    rintro root ⟨⟩ node member plain
    -- The only node around the typed expression is a cast.
    have typed : node ∈ (moment.typeExpr e).node.nodes := by
      cases needed : s.needed? with
      | none =>
          rw [needed] at member
          exact member
      | some kind =>
          rw [needed] at member
          rcases List.mem_append.mp member with inside | own
          · exact inside
          · cases List.mem_singleton.mp own
            cases plain
    exact Ledger.typeExpr_alone e fresh node typed plain

end Stmt

namespace Analysis

theorem checkDeclaration_empty (line : Nat) (name : String) (ty : Ty) (id : Option VarId)
    (a : Analysis) :
    (Stmt.declare line (checkDeclaration line ⟨name, ty, none, id⟩ a).1).root? = none := by
  unfold checkDeclaration
  split <;> rfl

theorem checkDeclaration_wraps {init : Expr} (plain : init.cast? = none) (line : Nat)
    (name : String) (ty : Ty) (a : Analysis) :
    (Stmt.declare line (checkDeclaration line ⟨name, ty, some init, none⟩ a).1).root? =
      some (init.wrapped (Stmt.declare line
        (checkDeclaration line ⟨name, ty, some init, none⟩ a).1).needed?) := by
  unfold checkDeclaration
  split
  · rfl
  · change some (coerceInit line ty init).node =
      some (init.wrapped ((coerceInit line ty init).node.uncast.conversion? ty))
    rw [coerceInit_wraps, Expr.uncast_wrapped plain]

theorem checkStmt_converted (s : Stmt) (fresh : s.Fresh) (a : Analysis) :
    (checkStmt s a).node.Converted (checkStmt s a).state.ledger := by
  have extension := checkStmt_extends s a
  cases s with
  | expr line value => exact Stmt.converted_typed extension fresh rfl
  | enterIf line condition => exact Stmt.converted_typed extension fresh rfl
  | beginBlock | endBlock =>
      refine Stmt.converted_empty _ ?_
      exact (congrArg Stmt.root? (crossing_node ..)).trans rfl
  | leaveIf line => exact Stmt.converted_empty _ rfl
  | declare line decl =>
      rcases decl with ⟨name, ty, init, id⟩
      rcases fresh with ⟨undeclared, inits⟩
      cases undeclared
      cases init with
      | none => exact Stmt.converted_empty _ (checkDeclaration_empty ..)
      | some init =>
          have own : (a.ledger.typeExpr init).node.Uncoerced a.ledger :=
            a.ledger.typeExpr_uncoerced init (inits init rfl)
          exact Stmt.converted_typed extension (inits init rfl)
            (checkDeclaration_wraps own.plain ..)

theorem checkItem_converted (item : Item) (fresh : Unchecked item) {a : Analysis}
    (ran : (checkItem item a).stopped = none) :
    (checkItem item a).node.Converted (checkItem item a).state.ledger := by
  cases item with
  | stmt s => exact checkStmt_converted s fresh a
  | function f =>
      have kept : (checkFunction f a).node.id = f.id := (checkFunction_signature f).1
      change (checkFunction f a).node.Converted (checkFunction f a).state.ledger
      intro s member
      rw [kept]
      cases given : f.id with
      | none =>
          rw [checkFunction_skipped f given] at member
          exact Function.fresh_stmts fresh s member
      | some id =>
          have ids : f.id.isSome := by rw [given]; rfl
          exact checkFunction_establishes (fun ledger s => s.Converted ledger)
            (fun _ _ _ extension => Stmt.converted_later extension) f
            (fun body provided s member a =>
              checkStmt_converted s (fresh.2 body provided s member) a) ids ran s member

end Analysis

namespace Program

/-- Analysis that reaches its end puts exactly the casts into a program that its operands need. -/
theorem analyze_converts (p : Program) (fresh : p.Fresh) (limit : Nat)
    (ended : (p.analyze (.empty limit)).stopped = none) :
    (p.analyze (.empty limit)).node.bare = p ∧ ∀ item ∈ (p.analyze (.empty limit)).node.items,
      item.Converted (p.analyze (.empty limit)).state.ledger := by
  have empty : (Analysis.mk (.empty limit) #[]).ledger.Reads [] .start := reads_empty limit
  rcases Analysis.register_numbers p.items fresh empty rfl with ⟨_, nodes, _⟩
  have unchecked := Analysis.numbered_unchecked [] p.items fresh
  refine ⟨(p.analyze_keeps_bare _).trans (bare_fresh p fresh), ?_⟩
  rcases analyze_ran ended with ⟨ran, _, visit⟩
  rw [visit]
  exact Analysis.each_establishes (fun ledger item => item.Converted ledger)
    Analysis.checkItem_extends (fun _ _ _ extension => Item.converted_later extension) _
    (fun item member _ ran => Analysis.checkItem_converted item
      (unchecked item (nodes ▸ member)) ran) ran

def uneven : Program :=
  ⟨[.function ⟨"f", .double, [⟨"a", .double, none⟩,
    ⟨"b", .int, none⟩], none, 1, none⟩,
    .stmt (.expr 2 (.call ⟨2, none⟩ (.name ⟨2, none⟩ "f" none) [.int ⟨2, none⟩ 1,
      .bool ⟨2, none⟩ true]))]⟩

def unevenCall : Expr :=
  .call ⟨2, none⟩ (.name ⟨2, some .double⟩ "f" (some (.function ⟨0⟩)))
    [.cast ⟨2, some .double⟩ .intToDouble (.int ⟨2, some .int⟩ 1), .bool ⟨2, some .boolean⟩ true]

theorem uneven_converts :
    uneven.Fresh ∧ (uneven.analyze (.empty 256)).stopped = none ∧
      (uneven.analyze (.empty 256)).state.diagnostics =
        #[⟨2, .argumentType 2 "f" .int .boolean⟩] ∧
      ((uneven.analyze (.empty 256)).state.ledger.seats unevenCall).map Seat.needed =
        [none, some .intToDouble, none] ∧
      ∀ seat ∈ (uneven.analyze (.empty 256)).state.ledger.seats unevenCall, seat.Exact := by
  have fresh : uneven.Fresh := by decide
  have ended : (uneven.analyze (.empty 256)).stopped = none := rfl
  have last : (Stmt.expr 2 unevenCall).Converted (uneven.analyze (.empty 256)).state.ledger :=
    (analyze_converts uneven fresh 256 ended).2 _ (List.mem_cons_of_mem _ List.mem_cons_self)
  exact ⟨fresh, ended, rfl, rfl, last.operands _ rfl unevenCall unevenCall.self_mem_nodes⟩

end Program
end StackCompiler
