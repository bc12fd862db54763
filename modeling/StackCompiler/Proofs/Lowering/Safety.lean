import StackCompiler.Compile
import StackCompiler.Proofs.Lowering.Markers
import StackCompiler.Proofs.Typing.Clean

/-!
Analysis makes code generation safe.

A node that obeys its typing rule has everything the generator asks of it, so on a program that was
analysed without a report nothing but a limit of the format can stop the generator; and which
programs stay within the limits is said on the program as it was handed over.
-/
namespace StackCompiler

def BinaryOp.opcodeAt : BinaryOp → Kind → Opcode
  | .arith op, kind => .arith op kind
  | .compare op, kind => .compare op kind
  | .logic op, _ => .logic op

namespace Expr
variable {ledger : Ledger} {e : Expr} {ty : Ty}

theorem typed_of_ty (known : e.ty = some ty) : e.typed = .ok ty := by
  simp only [typed, known]

theorem variable_answered (isVariable : e.IsVariable ty) : Answered e.variableTarget := by
  obtain ⟨line, identifier, id, rfl⟩ := isVariable
  exact ⟨(ty, id), rfl⟩

theorem checked_binary {note : Note} {op : BinaryOp} {left right : Expr}
    (checked : (binary note op left right).Checked ledger) :
    ∃ operand, left.ty = some operand ∧
      Lowering.binaryOpcode op left (binary note op left right) =
      .ok (op.opcodeAt operand.kind) := by
  obtain ⟨operand, result, leftTy, _, whole, accepts⟩ := checked
  have wholeTyped : (binary note op left right).typed = .ok result := typed_of_ty whole
  refine ⟨operand, leftTy, ?_⟩
  cases op with
  | arith op =>
      obtain ⟨numeric, rfl⟩ := accepts
      simp only [Lowering.binaryOpcode, wholeTyped, Except.bind, Arith.opcode, numeric, ↓reduceIte]
      rfl
  | compare op =>
      have chosen : operand.isNumeric || op.isEquality := by
        rcases accepts.1 with numeric | ⟨equality, _⟩
        · rw [numeric]
          rfl
        · rw [equality, Bool.or_true]
      simp only [Lowering.binaryOpcode, typed_of_ty leftTy, Except.bind, Comparison.opcode, chosen,
        ↓reduceIte]
      rfl
  | logic op => rfl

theorem checked_negate {note : Note} {operand : Expr}
    (checked : (unary note .negate operand).Checked ledger) :
    ∃ ty, operand.ty = some ty ∧
      (unary note .negate operand).typed.bind (negateOpcode · note.line) =
        .ok (.negate ty.kind) := by
  obtain ⟨ty, operandTy, whole, admitted, _⟩ := checked
  have wholeTyped : (unary note .negate operand).typed = .ok ty := typed_of_ty whole
  have numeric : ty.isNumeric := admitted
  refine ⟨ty, operandTy, ?_⟩
  simp only [wholeTyped, Except.bind, negateOpcode, numeric, ↓reduceIte]

theorem checked_compound {note : Note} {arith : Arith} {target value : Expr} (line : Nat)
    (checked : (assign note (.compound arith) target value).Checked ledger) :
    ∃ ty, target.IsVariable ty ∧
      value.typed.bind (arith.opcode · line) = .ok (.arith arith ty.kind) := by
  obtain ⟨ty, isVariable, valueTy, _, numeric⟩ := checked
  have numeric : ty.isNumeric := numeric rfl
  refine ⟨ty, isVariable, ?_⟩
  simp only [typed_of_ty valueTy, Except.bind, Arith.opcode, numeric, ↓reduceIte]

/-- The typing rule of a node answers all that the generator asks of it. -/
theorem checked_supplied (checked : e.Checked ledger) : e.Supplied := by
  cases e with
  | bool | int | double | call | cast => trivial
  | name note identifier binding =>
      match binding with
      | none => exact checked
      | some (.function id) => trivial
      | some (.variable id) =>
          obtain ⟨line, ty⟩ := note
          obtain ⟨entry, _, rfl⟩ := checked
          exact ⟨(entry.ty, id), rfl⟩
  | binary note op left right =>
      obtain ⟨operand, _, chosen⟩ := checked_binary checked
      exact ⟨_, chosen⟩
  | unary note op operand =>
      cases op with
      | negate =>
          obtain ⟨ty, _, chosen⟩ := checked_negate checked
          exact ⟨_, chosen⟩
      | not => trivial
      | increment | decrement =>
          obtain ⟨ty, _, _, _, mutates⟩ := checked
          exact variable_answered (mutates rfl)
  | assign note op target value =>
      obtain ⟨ty, isVariable, _⟩ := id checked
      refine ⟨variable_answered isVariable, ?_⟩
      rintro arith rfl
      obtain ⟨ty, _, chosen⟩ := checked_compound note.line checked
      exact ⟨_, chosen⟩

theorem checked_slot (checked : e.Checked ledger) (vars : ledger.vars.size ≤ UInt16.size)
    (functions : ledger.functions.size ≤ UInt16.size) : e.SlotFits := by
  match e with
  | .name note identifier (some (.variable id)) =>
      obtain ⟨entry, found, _⟩ := checked
      obtain ⟨below, _⟩ := Array.getElem?_eq_some_iff.mp found
      exact Nat.lt_of_lt_of_le below vars
  | .name note identifier (some (.function id)) =>
      obtain ⟨entry, found, _⟩ := checked
      obtain ⟨below, _⟩ := Array.getElem?_eq_some_iff.mp found
      exact Nat.lt_of_lt_of_le below functions
  | .name _ _ none | .bool .. | .int .. | .double .. | .binary .. | .unary .. | .assign ..
    | .call ..
  | .cast .. => trivial

end Expr

section
variable {ledger : Ledger}

theorem Stmt.sound_root {s : Stmt} (sound : s.Sound ledger) :
    ∀ root ∈ s.root?, ∀ node ∈ root.nodes, node.Checked ledger := by
  intro root held
  cases s with
  | expr line value =>
      cases held
      obtain ⟨ty, checked, _⟩ := sound
      exact checked
  | declare line decl => exact (sound.2 root held).1
  | enterIf line condition =>
      cases held
      exact sound.1
  | beginBlock | endBlock | leaveIf => cases held

theorem Stmt.sound_ready {s : Stmt} (sound : s.Sound ledger) : s.Ready := by
  refine ⟨fun root held node member =>
    Expr.checked_supplied (s.sound_root sound root held node member), ?_⟩
  cases s with
  | declare line decl =>
      obtain ⟨⟨id, known, _⟩, _⟩ := sound
      exact Option.isSome_iff_exists.mpr ⟨id, known⟩
  | _ => trivial

theorem Stmt.sound_slots {s : Stmt} (sound : s.Sound ledger) (vars : ledger.vars.size ≤ UInt16.size)
    (functions : ledger.functions.size ≤ UInt16.size) : s.SlotsFit := by
  refine ⟨fun root held node member =>
    Expr.checked_slot (s.sound_root sound root held node member) vars functions, ?_⟩
  cases s with
  | declare line decl =>
      obtain ⟨⟨id, known, below⟩, _⟩ := sound
      intro found member
      cases known.symm.trans member
      exact Nat.lt_of_lt_of_le below vars
  | _ => trivial

end

namespace Program
variable {p : Program} {ledger : Ledger}

theorem sound_id (sound : p.Sound ledger) {f : Function} (member : f ∈ p.functions) :
    ∃ id, f.id = some id ∧ id.index < p.functions.length := by
  have listed : f.id ∈ p.functions.map Function.id := List.mem_map_of_mem member
  rw [sound.places] at listed
  obtain ⟨place, below, same⟩ := List.mem_map.mp listed
  exact ⟨⟨place⟩, same.symm, List.mem_range.mp below⟩

theorem sound_function (sound : p.Sound ledger) {f : Function} (member : f ∈ p.functions) :
    f.Sound ledger := by
  obtain ⟨id, known, _⟩ := sound_id sound member
  exact sound.items _ (mem_functions.mp member) (Option.isSome_iff_exists.mpr ⟨id, known⟩)

theorem sound_statement (sound : p.Sound ledger) {s : Stmt} (member : s ∈ p.statements) :
    s.Sound ledger :=
  sound.items _ (mem_statements.mp member)

theorem sound_ready (sound : p.Sound ledger) : p.Ready := by
  refine ⟨fun s member => s.sound_ready (sound_statement sound member), fun f member => ?_⟩
  obtain ⟨id, known, _⟩ := sound_id sound member
  obtain ⟨params, stmts⟩ := sound_function sound member
  refine ⟨Option.isSome_iff_exists.mpr ⟨id, known⟩, fun param inside => ?_,
    fun s inside => s.sound_ready (stmts s inside)⟩
  obtain ⟨id, known, _⟩ := params param inside
  exact Option.isSome_iff_exists.mpr ⟨id, known⟩

theorem function_count (sound : p.Sound ledger) : ledger.functions.size = p.functions.length := by
  rw [sound.functions]
  simp

theorem sound_slots (sound : p.Sound ledger) (vars : ledger.vars.size ≤ UInt16.size)
    (functions : p.functions.length ≤ UInt16.size) : p.SlotsFit := by
  have functions' : ledger.functions.size ≤ UInt16.size := by rwa [function_count sound]
  refine ⟨fun s member => s.sound_slots (sound_statement sound member) vars functions',
    fun f member => ⟨?_, ?_, ?_⟩⟩
  · obtain ⟨id, known, below⟩ := sound_id sound member
    intro found same
    cases known.symm.trans same
    exact Nat.lt_of_lt_of_le below functions
  · intro param inside found same
    obtain ⟨id, known, below⟩ := (sound_function sound member).1 param inside
    cases known.symm.trans same
    exact Nat.lt_of_lt_of_le below vars
  · exact fun s inside => s.sound_slots ((sound_function sound member).2 s inside) vars functions'

theorem length_flatMap_congr {α β γ : Type} {members : List α} {f : α → List β}
    {g : α → List γ} (same : ∀ member ∈ members, (f member).length = (g member).length) :
    (members.flatMap f).length = (members.flatMap g).length := by
  rw [List.length_flatMap, List.length_flatMap, List.map_congr_left same]

theorem declared_count {s : Stmt} (sound : s.Sound ledger) :
    s.declared.length = s.names.length := by
  cases s with
  | declare line decl =>
      obtain ⟨⟨id, known, _⟩, _⟩ := sound
      simp [Stmt.declared, Stmt.names, known]
  | _ => rfl

theorem variable_count (sound : p.Sound ledger) : ledger.vars.size = p.names.length := by
  have ids := congrArg List.length sound.ids
  rw [List.length_map, List.length_range] at ids
  rw [← ids]
  refine length_flatMap_congr fun item member => ?_
  cases item with
  | stmt s => exact declared_count (sound.items _ member)
  | function f =>
      obtain ⟨params, stmts⟩ := sound_function sound (mem_functions.mpr member)
      have stored : (f.stored.flatMap fun param => param.id.toList).length = f.stored.length := by
        have ones : (f.stored.flatMap fun param => param.id.toList).length =
            (f.stored.flatMap fun param => [param]).length :=
          length_flatMap_congr fun param inside => by
            obtain ⟨id, known, _⟩ := params param inside
            simp [known]
        simpa using ones
      have stmts := length_flatMap_congr fun s inside => declared_count (stmts s inside)
      simp only [Item.declared, Item.names, Function.declared, Function.names, List.length_append,
        List.length_map, stored, stmts]

/-- If the places of all declarations fit, there are no more of them than places. -/
theorem slots_few (sound : p.Sound ledger) (statements : ∀ s ∈ p.statements, s.SlotFits)
    (functions : ∀ f ∈ p.functions, f.SlotFits) :
    ledger.vars.size ≤ UInt16.size ∧ p.functions.length ≤ UInt16.size := by
  have stmt : ∀ s : Stmt, s.SlotFits → ∀ id ∈ s.declared, id.index < UInt16.size := by
    intro s fits id member
    cases s with
    | declare line decl => exact fits id (by simpa [Stmt.declared] using member)
    | _ => cases member
  have fits : ∀ id ∈ p.items.flatMap Item.declared, id.index < UInt16.size := by
    intro id member
    obtain ⟨item, inside, declared⟩ := List.mem_flatMap.mp member
    cases item with
    | stmt s => exact stmt s (statements s (mem_statements.mpr inside)) id declared
    | function f =>
        obtain ⟨_, params, stmts⟩ := functions f (mem_functions.mpr inside)
        rcases List.mem_append.mp declared with parameter | inner
        · obtain ⟨param, stored, known⟩ := List.mem_flatMap.mp parameter
          exact params param stored id (by simpa using known)
        · obtain ⟨s, body, known⟩ := List.mem_flatMap.mp inner
          exact stmt s (stmts s body) id known
  constructor
  · refine Nat.le_of_not_lt fun many => ?_
    -- With more variables than places the ids, which leave none out, would reach the first place
    -- too many.
    have last : UInt16.size ∈ (p.items.flatMap Item.declared).map VarId.index := by
      rw [sound.ids]
      exact List.mem_range.mpr many
    obtain ⟨id, member, same⟩ := List.mem_map.mp last
    exact absurd (fits id member) (by rw [same]; exact Nat.lt_irrefl _)
  · refine Nat.le_of_not_lt fun many => ?_
    have last : some (FunId.mk UInt16.size) ∈ p.functions.map Function.id := by
      rw [sound.places]
      exact List.mem_map.mpr ⟨_, List.mem_range.mpr many, rfl⟩
    obtain ⟨f, member, same⟩ := List.mem_map.mp last
    exact absurd ((functions f member).1 _ same) (Nat.lt_irrefl _)

theorem compiledFunctions_signatures (base : Nat) (labels : Labels) (fs : List Function) :
    (Lowering.compiledFunctions base labels fs).map (fun f => (f.params, f.returns)) =
      fs.map fun f => (f.paramTypes, f.returns) :=
  Lowering.compiledFunctions_map (fun _ _ _ => rfl) base labels fs

theorem executable_function (sound : p.Sound ledger) (labels : Labels) {id : FunId}
    {entry : FunctionEntry} (known : ledger.functionAt? id = some entry) :
    ∃ f, (p.executable labels).functions[id.index]? = some f ∧ f.params = entry.params ∧
      f.returns = entry.returns := by
  have listed : (p.functions.map Function.entry)[id.index]? = some entry := by
    rw [Ledger.functionAt?, sound.functions] at known
    simpa using known
  obtain ⟨f, here, rfl⟩ := by simpa using listed
  have signatures := congrArg (·[id.index]?) (compiledFunctions_signatures
    (p.statements.flatMap Stmt.constants).length (labels.afterAll p.statements) p.functions)
  simp only [List.getElem?_map, here, Option.map_some] at signatures
  obtain ⟨compiled, found, same⟩ := Option.map_eq_some_iff.mp signatures
  obtain ⟨params, returns⟩ := Prod.mk.inj same
  exact ⟨compiled, found, params, returns⟩

/-- What a program needs for its executable to stay within the limits of the format. -/
structure WithinLimits (p : Program) (labelLimit : Nat) : Prop where
  balanced : ∀ stmts ∈ p.bodies, Balanced labelLimit stmts
  markers : p.bodies.flatten.countP Stmt.enters ≤ UInt16.size
  literals : p.constants.length ≤ UInt16.size
  names : p.names.length ≤ UInt16.size
  functions : p.functions.length ≤ UInt16.size

theorem bare_counts (stmts : List Stmt) :
    (stmts.map Stmt.bare).countP Stmt.enters = stmts.countP Stmt.enters ∧
      (stmts.map Stmt.bare).countP Stmt.leaves = stmts.countP Stmt.leaves := by
  have kinds : Stmt.enters ∘ Stmt.bare = Stmt.enters ∧
    Stmt.leaves ∘ Stmt.bare = Stmt.leaves :=
    ⟨funext fun s => by cases s <;> rfl, funext fun s => by cases s <;> rfl⟩
  rw [List.countP_map, List.countP_map, kinds.1, kinds.2]
  exact ⟨rfl, rfl⟩

theorem bare_balanced (limit : Nat) (stmts : List Stmt) :
    Balanced limit (stmts.map Stmt.bare) ↔ Balanced limit stmts := by
  simp only [Balanced, Nested, ← List.map_take, bare_counts]

theorem bare_literals (p : Program) : p.bare.constants = p.constants := by
  have stmt : ∀ s : Stmt, s.bare.constants = s.constants := by
    intro s
    cases s with
    | declare line decl =>
        cases init : decl.init <;> simp [Stmt.constants, Stmt.root?, Stmt.bare, init]
    | _ => simp [Stmt.constants, Stmt.root?, Stmt.bare]
  simp only [constants, bare_bodies, ← List.map_flatten, List.flatMap_map, stmt]

theorem withinLimits_bare (p : Program) (labelLimit : Nat) :
    p.bare.WithinLimits labelLimit ↔ p.WithinLimits labelLimit := by
  have balanced : (∀ stmts ∈ p.bare.bodies, Balanced labelLimit stmts) ↔
      ∀ stmts ∈ p.bodies, Balanced labelLimit stmts := by
    simp only [bare_bodies, List.forall_mem_map, bare_balanced]
  have markers :
      p.bare.bodies.flatten.countP Stmt.enters = p.bodies.flatten.countP Stmt.enters := by
    rw [bare_bodies, ← List.map_flatten, (bare_counts _).1]
  have functions : p.bare.functions.length = p.functions.length := by simp
  constructor
  · rintro ⟨paired, few, literals, names, slots⟩
    exact ⟨balanced.mp paired, markers ▸ few, bare_literals p ▸ literals,
      bare_program_names p ▸ names, functions ▸ slots⟩
  · rintro ⟨paired, few, literals, names, slots⟩
    exact ⟨balanced.mpr paired, markers.symm ▸ few, (bare_literals p).symm ▸ literals,
      (bare_program_names p).symm ▸ names, functions.symm ▸ slots⟩

theorem limits_iff (p : Program) (labelLimit : Nat) : p.WithinLimits labelLimit ↔
    p.constants.length ≤ UInt16.size ∧ (Labels.empty labelLimit).AllowsBodies p.bodies ∧
      p.names.length ≤ UInt16.size ∧ p.functions.length ≤ UInt16.size := by
  rw [Labels.allowsBodies_iff _ _ rfl (Nat.zero_le _)]
  constructor
  · rintro ⟨balanced, markers, literals, names, functions⟩
    exact ⟨literals, ⟨balanced, by simpa [Labels.empty] using markers⟩, names, functions⟩
  · rintro ⟨literals, ⟨balanced, markers⟩, names, functions⟩
    exact ⟨balanced, by simpa [Labels.empty] using markers, literals, names, functions⟩

/-- On a sound program code generation succeeds exactly within the limits, and otherwise the fault
is that of a limit. -/
theorem lower_sound (sound : p.Sound ledger) (options : LoweringOptions) :
    ((∃ exe, p.lower options = .ok exe) ↔ p.WithinLimits options.labelLimit) ∧
      ∀ fault, p.lower options = .error fault → fault.IsLimit := by
  have yields := p.lower_yields options
  have vars := variable_count sound
  rw [limits_iff]
  unfold Lowering.Yields at yields
  cases ran : p.lower options with
  | ok exe =>
      rw [ran] at yields
      obtain ⟨_, literals, markers, statements, functions⟩ := yields
      obtain ⟨few, slots⟩ := slots_few sound statements functions
      refine ⟨⟨fun _ => ⟨literals, markers, vars ▸ few, slots⟩, fun _ =>
        ⟨exe, rfl⟩⟩, ?_⟩
      intro fault failed
      cases failed
  | error fault =>
      rw [ran] at yields
      -- Nothing is missing in a sound program, so the fault is that of a limit.
      obtain ⟨limit, exceeded⟩ := yields (sound_ready sound)
      refine ⟨⟨fun ⟨exe, found⟩ => (by cases found),
        fun ⟨literals, markers, names, functions⟩ => ?_⟩, ?_⟩
      · exact absurd ⟨literals, markers, sound_slots sound (vars ▸ names) functions⟩ exceeded
      · intro other failed
        cases failed
        exact limit

/-- For a fresh program in which analysis found nothing wrong, code generation succeeds exactly if
the program stays within the limits, and otherwise the fault is that of a limit. -/
theorem lower_iff_withinLimits (p : Program) (fresh : p.Fresh) (blockLimit : Nat)
    (options : LoweringOptions) (ended : (p.analyze (.empty blockLimit)).stopped = none)
    (clean : (p.analyze (.empty blockLimit)).state.diagnostics = #[]) :
    ((∃ exe, (p.analyze (.empty blockLimit)).node.lower options = .ok exe) ↔
        p.WithinLimits options.labelLimit) ∧
      ∀ fault, (p.analyze (.empty blockLimit)).node.lower options = .error fault →
      fault.IsLimit := by
  obtain ⟨succeeds, faults⟩ := lower_sound (analyze_sound fresh ended clean) options
  refine ⟨succeeds.trans ?_, faults⟩
  rw [← withinLimits_bare, analyze_bare fresh ended]

theorem compile_ok {p : Program} {settings : Settings} {exe : Executable}
    (compiled : (p.compile settings).2 = .ok exe) :
    (p.analyze (.empty settings.blockLimit)).stopped = none ∧
      (p.analyze (.empty settings.blockLimit)).state.diagnostics = #[] ∧
      (p.compile settings).1.lower settings.lowering = .ok exe := by
  unfold compile at compiled ⊢
  simp only at compiled ⊢
  split at compiled
  · cases compiled
  · rename_i ended
    split at compiled
    · rename_i clean
      refine ⟨ended, Array.isEmpty_iff.mp clean, ?_⟩
      cases lowered : (p.analyze (.empty settings.blockLimit)).node.lower settings.lowering with
      | error fault =>
          rw [lowered] at compiled
          cases compiled
      | ok found =>
          rw [lowered] at compiled
          cases compiled
          rfl
    · cases compiled

def halving : Program :=
  ⟨[.function ⟨"half", .double, [⟨"n", .double, none⟩], none, 1, none⟩,
    .stmt (.declare 2 ⟨"x", .double, some (.int ⟨2, none⟩ 8), none⟩),
    .stmt (.declare 3 ⟨"n", .int, some (.int ⟨3, none⟩ 0), none⟩),
    .stmt (.enterIf 4 (.binary ⟨4, none⟩ (.compare .greater) (.name ⟨4, none⟩ "x" none)
      (.int ⟨4, none⟩ 1))),
    .stmt (.expr 5 (.assign ⟨5, none⟩ .plain (.name ⟨5, none⟩ "x" none)
      (.call ⟨5, none⟩ (.name ⟨5, none⟩ "half" none)
        [.unary ⟨5, none⟩ .increment (.name ⟨5, none⟩ "n" none)]))),
    .stmt (.leaveIf 6)]⟩

theorem halving_lowered :
    halving.Fresh ∧ (halving.analyze (.empty 0)).stopped = none ∧
      (halving.analyze (.empty 0)).state.diagnostics = #[] ∧ halving.WithinLimits 1 ∧
      (∃ exe, (halving.analyze (.empty 0)).node.lower ⟨0, 10, 1⟩ = .ok exe) ∧
      ¬ halving.WithinLimits 0 ∧ ∀ fault,
        (halving.analyze (.empty 0)).node.lower ⟨0, 10, 0⟩ = .error fault →
          fault.IsLimit := by
  have fresh : halving.Fresh := by decide
  have ended : (halving.analyze (.empty 0)).stopped = none := rfl
  have clean : (halving.analyze (.empty 0)).state.diagnostics = #[] := rfl
  have succeeds : ((halving.analyze (.empty 0)).node.lower ⟨0, 10, 1⟩).isOk = true := by
    decide +kernel
  have fails : ((halving.analyze (.empty 0)).node.lower ⟨0, 10, 0⟩).isOk = false := by
    decide +kernel
  obtain ⟨within, _⟩ := lower_iff_withinLimits halving fresh 0 ⟨0, 10, 1⟩ ended clean
  obtain ⟨beyond, faults⟩ := lower_iff_withinLimits halving fresh 0 ⟨0, 10, 0⟩ ended clean
  have lowered := exists_of_isOk succeeds
  refine ⟨fresh, ended, clean, within.mp lowered, lowered, fun limits => ?_, faults⟩
  obtain ⟨exe, ran⟩ := beyond.mpr limits
  rw [ran] at fails
  cases fails

end Program
end StackCompiler
