import Mathlib.Data.List.Forall2
import StackCompiler.Compile
import StackCompiler.Proofs.Typing.Annotation

/-!
Analysing what analysis left.

Every rule comes to the same once its operands have been converted: an operand that was converted
has the type it was converted to, and one that could not be converted is the same as before. So
typing an expression, checking a statement, a body or an item again from the same state leaves the
same node, reports the same and stops at the same place. Registration looks at signatures alone, and
checking does not change them.
-/
namespace StackCompiler

/-! Operands. -/

def Ledger.Repeats (ledger : Ledger) (typed : Typed Expr) : Prop :=
  ledger.typeExpr typed.node = typed

/-- An operand as a rule leaves it: as it was, or, if it had a type, converted. -/
def Expr.Becomes (e after : Expr) : Prop :=
  after = e ∨ e.ty.isSome ∧ ∃ kind, after = e.convert kind

namespace Expr
variable {e : Expr} {source ty : Ty}

theorem becomes_same (e : Expr) : e.Becomes e := .inl rfl

theorem coerce_identity (e : Expr) : e.coerce .identity = e := rfl

theorem becomes_coerce {coercion : Coercion} (typed : e.ty = some source) :
    e.Becomes (e.coerce coercion) := by
  cases coercion with
  | identity => exact becomes_same e
  | convert kind => exact .inr ⟨by rw [typed]; rfl, kind, rfl⟩

theorem becomes_widenIf {widen : Bool} (typed : e.ty = some ty) : e.Becomes (e.widenIf widen) := by
  cases widen with
  | false => exact becomes_same e
  | true => exact .inr ⟨by rw [typed]; rfl, .intToDouble, rfl⟩

theorem becomes_typed {after : Expr} (becomes : e.Becomes after) :
    after.ty.isSome = e.ty.isSome := by
  rcases becomes with rfl | ⟨typed, kind, rfl⟩
  · rfl
  · rw [typed]
    rfl

end Expr

theorem Ledger.repeats_becomes {ledger : Ledger} {e after : Expr} {found : List Diagnostic}
    (repeats : ledger.Repeats ⟨e, found⟩) (becomes : e.Becomes after) :
    ledger.Repeats ⟨after, found⟩ := by
  rcases becomes with rfl | ⟨typed, kind, rfl⟩
  · exact repeats
  · rcases Option.isSome_iff_exists.mp typed with ⟨ty, known⟩
    simp only [Repeats] at repeats ⊢
    simp only [Expr.convert, typeExpr, repeats, Typing.cast, known, Option.map_some]

theorem Coercion.into?_same (ty : Ty) : Coercion.into? ty ty = some .identity := if_pos rfl

theorem BinaryOp.typing?_accepted {op : BinaryOp} {operand result : Ty}
    (accepts : op.Accepts operand result) :
    op.typing? operand operand = some ⟨result, false, false⟩ := by
  cases op with
  | arith op =>
      rcases accepts with ⟨numeric, rfl⟩
      cases result with
      | boolean => cases numeric
      | int | double => rfl
  | compare op =>
      rcases accepts with ⟨numeric | ⟨equality, rfl⟩, rfl⟩
      · cases operand with
        | boolean => cases numeric
        | int | double => simp [typing?, Promotion.of?, Promotion.typing]
      · simp [typing?, equality]
  | logic op =>
      rcases accepts with ⟨rfl, rfl⟩
      rfl

/-! The rules. -/

namespace Typing
variable (line : Nat)

theorem binary_again (op : BinaryOp) (left right : Expr) :
    ∃ ty first second, (binary line op left right).node =
      .binary ⟨line, ty⟩ op first second ∧
      left.Becomes first ∧ right.Becomes second ∧
      binary line op first second = binary line op left right := by
  generalize whole : binary line op left right = typed
  have same := whole
  unfold binary at whole
  split at whole
  · rename_i leftTy rightTy leftTyped rightTyped
    split at whole
    · rename_i typing found
      rcases BinaryOp.typing?_spec found
        with ⟨operand, accepts, leftInt, rightInt, widenLeft, widenRight⟩
      have first := (Expr.widenIf_spec leftTyped leftInt).1
      have second := (Expr.widenIf_spec rightTyped rightInt).1
      rw [widenLeft] at first
      rw [widenRight] at second
      subst whole
      refine ⟨_, _, _, rfl, Expr.becomes_widenIf leftTyped, Expr.becomes_widenIf rightTyped, ?_⟩
      simp only [binary, first, second, BinaryOp.typing?_accepted accepts]
      rfl
    · subst whole
      exact ⟨_, left, right, rfl, .inl rfl, .inl rfl, same⟩
  · subst whole
    exact ⟨_, left, right, rfl, .inl rfl, .inl rfl, same⟩

theorem unary_again (op : UnaryOp) (operand : Expr) :
    ∃ ty, (unary line op operand).node = .unary ⟨line, ty⟩ op operand := by
  unfold unary
  split
  · exact ⟨none, rfl⟩
  · exact ⟨none, rfl⟩
  · split <;> exact ⟨_, rfl⟩

theorem assign_again (op : AssignOp) (target value : Expr) :
    ∃ ty after, (assign line op target value).node = .assign ⟨line, ty⟩ op target after ∧
      value.Becomes after ∧ assign line op target after = assign line op target value := by
  generalize whole : assign line op target value = typed
  have same := whole
  have kept : typed.node = .assign ⟨line, none⟩ op target value →
      ∃ ty after, typed.node = .assign ⟨line, ty⟩ op target after ∧ value.Becomes after ∧
        assign line op target after = typed := fun shape => ⟨none, value, shape, .inl rfl, same⟩
  unfold assign at whole
  split at whole
  · split at whole
    · rename_i targetTy valueTy targetTyped valueTyped
      split at whole
      · exact kept (by rw [← whole])
      · rename_i numeric
        split at whole
        · rename_i coercion coerced
          have converted := (Expr.coerce_spec valueTyped coerced).1
          subst whole
          refine ⟨_, _, rfl, Expr.becomes_coerce valueTyped, ?_⟩
          simp only [assign, targetTyped, converted, if_neg numeric, Coercion.into?_same]
          rfl
        · exact kept (by rw [← whole])
    · exact kept (by rw [← whole])
  · exact kept (by rw [← whole])
  · exact kept (by rw [← whole])

theorem arguments_again (callee : String) (position : Nat) (types : List Ty) (args : List Expr) :
    List.Forall₂ Expr.Becomes args (arguments line callee position types args).node ∧
      arguments line callee position types (arguments line callee position types args).node =
        arguments line callee position types args := by
  induction types generalizing position args with
  | nil => exact ⟨List.forall₂_same.mpr fun arg _ => Expr.becomes_same arg, rfl⟩
  | cons required types ih =>
      cases args with
      | nil => exact ⟨.nil, rfl⟩
      | cons arg args =>
          rcases ih (position + 1) args with ⟨others, again⟩
          cases typed : arg.ty with
          | none =>
              constructor
              · simpa [arguments, typed] using ⟨Expr.becomes_same arg, others⟩
              · simp [arguments, typed, again]
          | some passed =>
              cases coerced : Coercion.into? passed required with
              | none =>
                  constructor
                  · simpa [arguments, typed, coerced] using ⟨Expr.becomes_same arg, others⟩
                  · simp [arguments, typed, coerced, again]
              | some coercion =>
                  have converted := (Expr.coerce_spec typed coerced).1
                  constructor
                  · simpa [arguments, typed, coerced] using ⟨Expr.becomes_coerce typed, others⟩
                  · simp [arguments, typed, coerced, again, converted, Coercion.into?_same,
                      Expr.coerce_identity]

theorem all_typed {args after : List Expr} (become : List.Forall₂ Expr.Becomes args after) :
    (after.all fun arg => arg.ty.isSome) = args.all fun arg => arg.ty.isSome := by
  -- Converted or not, an argument has a type as before.
  induction become with
  | nil => rfl
  | cons first _ ih => rw [List.all_cons, List.all_cons, Expr.becomes_typed first, ih]

theorem callOf_again (callee : Expr) (args : List Expr) (name : String) (params : List Ty)
    (returns : Ty) :
    ∃ ty after, (callOf line callee args name params returns).node =
      .call ⟨line, ty⟩ callee after ∧
      List.Forall₂ Expr.Becomes args after ∧
      callOf line callee after name params returns =
      callOf line callee args name params returns := by
  rcases arguments_again line name 1 params args with ⟨become, again⟩
  by_cases count : args.length ≠ params.length
  · simp only [callOf, if_pos count]
    exact ⟨_, args, rfl, List.forall₂_same.mpr fun arg _ => Expr.becomes_same arg,
      by rw [if_pos count]⟩
  · have length := become.length_eq
    simp only [callOf, if_neg count]
    refine ⟨_, _, rfl, become, ?_⟩
    rw [if_neg (by rwa [← length]), again, all_typed become]

end Typing

namespace Ledger
variable (ledger : Ledger)

theorem typeCall_again (line : Nat) (callee : Expr) (args : List Expr) :
    ∃ ty after, (ledger.typeCall line callee args).node = .call ⟨line, ty⟩ callee after ∧
      List.Forall₂ Expr.Becomes args after ∧
      ledger.typeCall line callee after = ledger.typeCall line callee args := by
  have same : List.Forall₂ Expr.Becomes args args :=
    List.forall₂_same.mpr fun arg _ => Expr.becomes_same arg
  unfold typeCall
  split
  · split
    · exact Typing.callOf_again ..
    · exact ⟨none, args, rfl, same, rfl⟩
  · exact ⟨none, args, rfl, same, rfl⟩
  · exact ⟨none, args, rfl, same, rfl⟩
  · exact ⟨none, args, rfl, same, rfl⟩

theorem typeName_again (line : Nat) (name : String) (old : Option Binding) :
    ledger.Repeats (ledger.typeName line name old) := by
  unfold Repeats typeName
  split
  · rename_i resolved
    simp only [typeExpr, typeName, resolved]
  · rename_i missing
    simp only [typeExpr, typeName, missing]

theorem typeArgs_again {args after : List Expr}
    (repeats : ∀ arg ∈ args, ledger.Repeats (ledger.typeExpr arg))
    (become : List.Forall₂ Expr.Becomes (ledger.typeArgs args).node after) :
    ledger.typeArgs after = ⟨after, (ledger.typeArgs args).diagnostics⟩ := by
  induction args generalizing after with
  | nil =>
      cases become
      rfl
  | cons arg rest ih =>
      rcases List.forall_mem_cons.mp repeats with ⟨own, others⟩
      rw [typeArgs] at become ⊢
      cases become with
      | cons first later =>
          have here := repeats_becomes own first
          simp only [Repeats] at here
          rw [typeArgs, here, ih others later]

/-- Typing what typing left changes nothing and reports the same. -/
theorem typeExpr_again (e : Expr) : ledger.Repeats (ledger.typeExpr e) := by
  induction e with
  | bool | int | double => rfl
  | name note identifier binding => exact ledger.typeName_again ..
  | binary note op left right first second =>
      rcases Typing.binary_again note.line op (ledger.typeExpr left).node
        (ledger.typeExpr right).node with
        ⟨ty, one, other, node, becomes, follows, again⟩
      have left := repeats_becomes first becomes
      have right := repeats_becomes second follows
      simp only [Repeats] at left right ⊢
      simp only [typeExpr, node, left, right, again]
  | unary note op operand inner =>
      rcases Typing.unary_again note.line op (ledger.typeExpr operand).node with ⟨ty, node⟩
      simp only [Repeats] at inner ⊢
      simp only [typeExpr, node, inner]
  | assign note op target value first second =>
      rcases Typing.assign_again note.line op (ledger.typeExpr target).node
        (ledger.typeExpr value).node with
        ⟨ty, after, node, becomes, again⟩
      have value := repeats_becomes second becomes
      simp only [Repeats] at first value ⊢
      simp only [typeExpr, node, first, value, again]
  | call note callee args target inner =>
      rcases ledger.typeCall_again note.line (ledger.typeExpr callee).node
        (ledger.typeArgs args).node with
        ⟨ty, after, node, become, again⟩
      have passed := ledger.typeArgs_again inner become
      simp only [Repeats] at target ⊢
      simp only [typeExpr, node, target, passed, again]
  | cast note kind operand inner =>
      simp only [Repeats] at inner ⊢
      simp only [typeExpr, Typing.cast, inner]

end Ledger

/-! Statements, functions and items. -/

namespace Analysis

theorem coerceInit_again (line : Nat) (declared : Ty) (init : Expr) :
    init.Becomes (coerceInit line declared init).node ∧
      coerceInit line declared (coerceInit line declared init).node =
      coerceInit line declared init := by
  cases typed : init.ty with
  | none =>
      simp only [coerceInit, typed]
      exact ⟨Expr.becomes_same init, trivial⟩
  | some source =>
      cases coerced : Coercion.into? source declared with
      | none =>
          simp only [coerceInit, typed, coerced]
          exact ⟨Expr.becomes_same init, trivial⟩
      | some coercion =>
          have converted := (Expr.coerce_spec typed coerced).1
          simp only [coerceInit, typed, coerced, converted, Coercion.into?_same]
          exact ⟨Expr.becomes_coerce typed, rfl⟩

theorem checkDeclaration_again (line : Nat) (decl : Declaration) (a : Analysis) :
    checkDeclaration line (checkDeclaration line decl a).1 a = checkDeclaration line decl a ∧
      Option.Rel Expr.Becomes decl.init (checkDeclaration line decl a).1.init := by
  rcases decl with ⟨name, ty, init, id⟩
  have unchanged : ∀ init : Option Expr, Option.Rel Expr.Becomes init init := by
    rintro (_ | init)
    · exact .none
    · exact .some (Expr.becomes_same init)
  rcases declared : a.declare name ty line with ⟨_ | id, next⟩
  · simp only [checkDeclaration, declared]
    exact ⟨trivial, unchanged init⟩
  · cases init with
    | none =>
        simp only [checkDeclaration, declared]
        exact ⟨trivial, unchanged none⟩
    | some init =>
        rcases coerceInit_again line ty init with ⟨becomes, again⟩
        simp only [checkDeclaration, declared, again]
        exact ⟨trivial, .some becomes⟩

theorem checkStmt_again (s : Stmt) (a : Analysis) :
    checkStmt (checkStmt s a).node a = checkStmt s a := by
  cases s with
  | expr line value =>
      have again := a.ledger.typeExpr_again value
      simp only [Ledger.Repeats] at again
      simp only [checkStmt, Visit.done, again]
  | enterIf line condition =>
      have again := a.ledger.typeExpr_again condition
      simp only [Ledger.Repeats] at again
      simp only [checkStmt, Visit.done, again]
  | declare line decl =>
      rcases decl with ⟨name, ty, _ | init, id⟩
      · rcases checkDeclaration_again line ⟨name, ty, none, id⟩ a with ⟨again, inits⟩
        rcases checked : checkDeclaration line ⟨name, ty, none, id⟩ a
          with ⟨⟨_, _, _ | after, _⟩, next⟩
        · rw [checked] at again
          simp only [checkStmt, checked, Visit.done, again]
        · rw [checked] at inits
          cases inits
      · rcases checkDeclaration_again line ⟨name, ty, some (a.ledger.typeExpr init).node, id⟩
          (a.report (a.ledger.typeExpr init).diagnostics) with ⟨again, inits⟩
        rcases checked :
          checkDeclaration line ⟨name, ty, some (a.ledger.typeExpr init).node, id⟩
          (a.report (a.ledger.typeExpr init).diagnostics) with ⟨⟨_, _, _ | after, _⟩, next⟩
        · rw [checked] at inits
          cases inits
        · rw [checked] at again inits
          cases inits with
          | some becomes =>
              have typed := Ledger.repeats_becomes (a.ledger.typeExpr_again init) becomes
              simp only [Ledger.Repeats] at typed
              simp only [checkStmt, checked, Visit.done, typed, again]
  | beginBlock line => rw [checkStmt, crossing_node, checkStmt]
  | endBlock line => rw [checkStmt, crossing_node, checkStmt]
  | leaveIf line => rfl

theorem declareParams_again (line : Nat) (params : List Param) (a : Analysis) :
    declareParams line (declareParams line params a).1 a = declareParams line params a := by
  induction params generalizing a with
  | nil => rfl
  | cons param rest ih =>
      rw [declareParams_cons, declareParams_cons]
      dsimp only
      rw [ih]
      rcases a.declare param.name param.ty line with ⟨_ | id, next⟩ <;> rfl

theorem checkFunction_again (f : Function) (a : Analysis) :
    checkFunction (checkFunction f a).node a = checkFunction f a := by
  rcases f with ⟨name, returns, params, body, line, id⟩
  match body, id with
  | none, _ | some _, none => rfl
  | some body, some id =>
      cases opens : a.ledger.openBlock with
      | error fault => simp only [checkFunction, checkBody, opens, Visit.stop]
      | ok ledger =>
          have declared := declareParams_again line params ⟨ledger, a.diagnostics⟩
          have stmts := Visit.each_again checkStmt_again body
            (declareParams line params ⟨ledger, a.diagnostics⟩).2
          cases stopped : (Visit.each checkStmt body
              (declareParams line params ⟨ledger, a.diagnostics⟩).2).stopped with
          | some fault =>
              simp only [checkFunction, checkBody, opens, stopped, Visit.stop, declared, stmts]
          | none =>
              cases closes : closeBody a.ledger.depth (Visit.each checkStmt body
                  (declareParams line params ⟨ledger, a.diagnostics⟩).2).state.ledger with
              | error fault =>
                  simp only [checkFunction, checkBody, opens, stopped, closes, Visit.stop,
                    declared, stmts]
              | ok after =>
                  simp only [checkFunction, checkBody, opens, stopped, closes, Visit.done,
                    declared, stmts]

theorem checkItem_again (item : Item) (a : Analysis) :
    checkItem (checkItem item a).node a = checkItem item a := by
  cases item with
  | function f => exact congrArg (Visit.map Item.function) (checkFunction_again f a)
  | stmt s => exact congrArg (Visit.map Item.stmt) (checkStmt_again s a)

end Analysis

def Item.signature? : Item → Option (Option FunId × FunctionEntry)
  | function f => some (f.id, f.entry)
  | stmt _ => none

namespace Analysis

theorem checkItem_signature (item : Item) (a : Analysis) :
    (checkItem item a).node.signature? = item.signature? := by
  cases item with
  | stmt s => rfl
  | function f =>
      rcases checkFunction_signature f (a := a) with ⟨id, entry⟩
      exact congrArg some (Prod.ext id entry)

theorem registerFunction_again {f after : Function} {a : Analysis}
    (id : after.id = (registerFunction f a).1.id)
    (entry : after.entry = (registerFunction f a).1.entry) :
    registerFunction after a = (after, (registerFunction f a).2) := by
  -- Registration looks at the signature of a function, and nothing is left to do where the id is
  -- there.
  rcases f with ⟨name, returns, params, body, line, old⟩
  rcases after with ⟨_, _, others, stmts, _, given⟩
  unfold registerFunction at id entry ⊢
  cases known : a.ledger.findFunctionInBlock name with
  | some first =>
      simp only [known, Function.entry, FunctionEntry.mk.injEq] at entry
      rcases entry with ⟨rfl, rfl, _, rfl⟩
      simp only [known]
  | none =>
      simp only [known, Ledger.addFunction, Function.entry, FunctionEntry.mk.injEq] at id entry
      rcases entry with ⟨rfl, rfl, types, rfl⟩
      simp only [Function.paramTypes] at types
      simp only [known, Ledger.addFunction, Function.paramTypes, types, id]

theorem registerItem_done (item : Item) (a : Analysis) :
    registerItem item a = .done (registerItem item a).node (registerItem item a).state := by
  cases item <;> rfl

theorem registerItem_again {item after : Item} {a : Analysis}
    (same : after.signature? = (registerItem item a).node.signature?) :
    registerItem after a = .done after (registerItem item a).state := by
  cases item with
  | stmt s =>
      cases after with
      | stmt other => rfl
      | function f => cases same
  | function f =>
      cases after with
      | stmt other => cases same
      | function g =>
          rcases Prod.mk.inj (Option.some.inj same) with ⟨id, entry⟩
          rw [registerItem, registerFunction_again id entry]
          rfl

theorem each_registerItem_done (items : List Item) (a : Analysis) :
    Visit.each registerItem items a =
      .done (Visit.each registerItem items a).node (Visit.each registerItem items a).state := by
  induction items generalizing a with
  | nil => rfl
  | cons item rest ih =>
      rw [Visit.each_cons, registerItem_done]
      exact congrArg (Visit.map _) (ih _)

theorem each_registerItem_again {items after : List Item} {a : Analysis}
    (same : after.map Item.signature? =
      (Visit.each registerItem items a).node.map Item.signature?) :
    Visit.each registerItem after a = .done after (Visit.each registerItem items a).state := by
  induction items generalizing after a with
  | nil =>
      rcases List.map_eq_nil_iff.mp same with rfl
      rfl
  | cons item rest ih =>
      rw [Visit.each_cons, registerItem_done] at same ⊢
      cases after with
      | nil => cases same
      | cons next others =>
          rcases List.cons.inj same with ⟨first, later⟩
          rw [Visit.each_cons, registerItem_again first]
          simp only [Visit.done, ih later, Visit.map]

end Analysis

namespace Program

theorem analyze_checks (p : Program) (ledger : Ledger) :
    p.analyze ledger =
      ((Visit.each Analysis.checkItem (Visit.each Analysis.registerItem p.items ⟨ledger, #[]⟩).node
      (Visit.each Analysis.registerItem p.items ⟨ledger, #[]⟩).state).andThen
        Analysis.checkClosed).map mk := by
  -- Registration does not stop, so an analysis is what checking the registered items comes to.
  rw [analyze, Analysis.each_registerItem_done]
  rfl

/-- Analysing what an analysis left, from the same ledger, comes to the same. -/
theorem analyze_again (p : Program) (ledger : Ledger) :
    (p.analyze ledger).node.analyze ledger = p.analyze ledger := by
  have left : (p.analyze ledger).node.items =
      (Visit.each Analysis.checkItem
        (Visit.each Analysis.registerItem p.items ⟨ledger, #[]⟩).node
        (Visit.each Analysis.registerItem p.items ⟨ledger, #[]⟩).state).node := by
    have closed : ∀ visit : Analysis.Checking (List Item),
        id (visit.andThen Analysis.checkClosed).node = id visit.node :=
          Visit.andThen_keeps Analysis.checkClosed_node
    rw [analyze_checks]
    exact closed _
  have signatures := Visit.each_keeps Analysis.checkItem_signature
    (Visit.each Analysis.registerItem p.items ⟨ledger, #[]⟩).node
    (Visit.each Analysis.registerItem p.items ⟨ledger, #[]⟩).state
  rw [← left] at signatures
  rw [analyze_checks, Analysis.each_registerItem_again signatures, Visit.done, left,
    Visit.each_again Analysis.checkItem_again, ← analyze_checks]

/-- A second analysis with a fresh ledger leaves the tree, the ledger and the reports that the first
one left and stops where it stopped; and a program that is compiled again compiles to the same. -/
theorem analyze_repeats (p : Program) (limit : Nat) :
    (p.analyze (.empty limit)).node.analyze (.empty limit) = p.analyze (.empty limit) ∧
      ∀ settings, (p.compile settings).1.compile settings = p.compile settings := by
  constructor
  · exact analyze_again p (.empty limit)
  · intro settings
    have again := analyze_again p (.empty settings.blockLimit)
    simp only [compile, again]

end Program

end StackCompiler
