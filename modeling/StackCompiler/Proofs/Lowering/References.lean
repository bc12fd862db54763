import StackCompiler.Proofs.Lowering.Tables

/-!
What code refers to in the tables of its executable.

An instruction that loads or stores a variable has the variable's slot for an operand, and its kind
comes from a type: of the declaration, of the use, or int where a variable is counted up or down. In
a sound program these types agree with the table, so each such instruction is of the kind of the
variable that it names.
-/
namespace StackCompiler

namespace Executable

/-- The slot in an instruction is one of its table, and a variable is loaded and stored as a double
exactly if it is one. -/
def Covers (exe : Executable) (i : Instruction) : Prop :=
  match i.opcode with
  | .load kind | .store kind =>
      ∃ v ∈ exe.statics, i.operands = [v.slot] ∧ (kind = .double ↔ v.ty = .double)
  | .pushFunction => ∃ f ∈ exe.functions, i.operands = [f.slot]
  | _ => True

def Has (exe : Executable) (ty : Ty) (id : VarId) : Prop :=
  ∃ v ∈ exe.statics, v.slot = .ofNat id.index ∧ v.ty = ty

structure Lists (exe : Executable) (ledger : Ledger) : Prop where
  vars : ∀ id entry, ledger.variableAt? id = some entry → exe.Has entry.ty id
  functions : ∀ id entry, ledger.functionAt? id = some entry →
    ∃ f ∈ exe.functions, f.slot = .ofNat id.index

variable {exe : Executable} {ledger : Ledger} {ty : Ty} {id : VarId} {line : Nat}

theorem kind_double (ty : Ty) : ty.kind = .double ↔ ty = .double := by
  cases ty <;> decide

theorem covers_load (has : exe.Has ty id) : exe.Covers ⟨.load ty.kind, [.ofNat id.index]⟩ := by
  rcases has with ⟨v, member, slot, rfl⟩
  exact ⟨v, member, by rw [slot], kind_double v.ty⟩

theorem covers_store (has : exe.Has ty id) :
    exe.Covers ⟨.store ty.kind, [.ofNat id.index]⟩ := by
  rcases has with ⟨v, member, slot, rfl⟩
  exact ⟨v, member, by rw [slot], kind_double v.ty⟩

theorem covers_operator {opcode : Opcode} (operator : opcode.isOperator = true) :
    exe.Covers ⟨opcode, []⟩ := by
  cases opcode <;> trivial

end Executable

open Executable Lowering

section
variable {exe : Executable} {ledger : Ledger} (lists : exe.Lists ledger)
include lists

namespace Expr

theorem target_has {e : Expr} {ty : Ty} {id : VarId} (checked : e.Checked ledger)
    (answer : e.variableTarget = .ok (ty, id)) : exe.Has ty id := by
  rcases variable_target_ok answer with ⟨line, identifier, rfl⟩
  rcases checked with ⟨entry, found, typed⟩
  cases typed
  exact lists.vars id entry found

/-- What a node adds is covered if its rule and those of its parts are obeyed. -/
theorem own_covered (e : Expr) (checked : ∀ node ∈ e.nodes, node.Checked ledger) (base : Nat)
    (keep : Bool) :
    ∀ w ∈ e.own base keep, exe.Covers w.instruction := by
  have rule := checked e e.self_mem_nodes
  cases e with
  | bool | int | double => exact List.forall_mem_singleton.mpr trivial
  | name note identifier binding =>
      rcases binding with _ | id | id
      · exact List.forall_mem_nil _
      · exact forall_loaded fun ty id answer => covers_load (target_has lists rule answer)
      · rcases rule with ⟨entry, found, _⟩
        rcases lists.functions id entry found with ⟨f, member, slot⟩
        exact List.forall_mem_singleton.mpr ⟨f, member, by rw [slot]⟩
  | binary note op left right =>
      apply forall_chosen
      exact fun opcode choice => covers_operator (binary_operator choice)
  | unary note op operand =>
      have part := (forall_nodes_unary.mp checked).1 operand operand.self_mem_nodes
      rcases rule with ⟨ty, typed, _, admitted, _⟩
      cases op with
      | negate =>
          apply forall_chosen
          exact fun opcode choice => covers_operator (negate_operator choice)
      | not => exact List.forall_mem_singleton.mpr trivial
      | increment | decrement =>
          -- Only an int is counted, so the fixed kind of the store and the load is that of the
          -- variable.
          have counted : ty = .int := of_decide_eq_true admitted
          have has : ∀ found id, operand.variableTarget = .ok (found, id) →
            exe.Has .int id := by
            intro found id answer
            have known := target_has lists part answer
            rcases variable_target_ok answer with ⟨line, identifier, rfl⟩
            cases typed
            exact counted ▸ known
          exact forall_changed trivial (fun _ id answer => covers_store (has _ id answer))
            fun _ id answer => covers_load (has _ id answer)
  | assign note op target value =>
      have part := (forall_nodes_assign.mp checked).1.2 target target.self_mem_nodes
      simp only [own, List.forall_mem_append]
      constructor
      · constructor
        · split
          · exact forall_loaded fun ty id answer => covers_load (target_has lists part answer)
          · exact List.forall_mem_nil _
        · cases op with
          | plain => exact List.forall_mem_nil _
          | compound op =>
              apply forall_chosen
              exact fun opcode choice => covers_operator (arith_operator choice)
      · exact forall_stored keep (fun ty id answer => covers_store (target_has lists part answer))
          fun ty id answer => covers_load (target_has lists part answer)
  | call | cast => exact List.forall_mem_singleton.mpr trivial

theorem code_covered (e : Expr) (checked : ∀ node ∈ e.nodes, node.Checked ledger) (base : Nat)
    (keep : Bool) :
    ∀ w ∈ e.code base keep, exe.Covers w.instruction :=
  e.forall_code (fun node member => node.own_covered lists
    fun part inside => checked part (e.nodes_within node member part inside)) base keep

end Expr

theorem Stmt.code_covered (s : Stmt) (sound : s.Sound ledger)
    (tabled : ∀ v ∈ s.statics, v ∈ exe.statics) (base : Nat)
    (labels : Labels) : ∀ w ∈ s.code base labels, exe.Covers w.instruction := by
  cases s with
  | expr line value =>
      rcases sound with ⟨ty, checked, _⟩
      rw [code, List.forall_mem_append]
      constructor
      · exact value.code_covered lists checked _ _
      · split
        · exact List.forall_mem_nil _
        · exact List.forall_mem_singleton.mpr trivial
  | declare line decl =>
      rcases decl with ⟨name, ty, _ | init, _ | id⟩
      · exact List.forall_mem_nil _
      · exact List.forall_mem_nil _
      · exact init.code_covered lists (sound.2 init rfl).1 _ _
      · have has : exe.Has ty id := ⟨_, tabled _ List.mem_cons_self, rfl, rfl⟩
        rw [code, List.forall_mem_append]
        exact ⟨init.code_covered lists (sound.2 init rfl).1 _ _,
          List.forall_mem_singleton.mpr (covers_store has)⟩
  | beginBlock line | endBlock line => exact List.forall_mem_singleton.mpr trivial
  | enterIf line condition =>
      rw [code, List.forall_mem_append]
      exact ⟨condition.code_covered lists sound.1 _ _, List.forall_mem_singleton.mpr trivial⟩
  | leaveIf line =>
      rw [code]
      cases labels.pending.back? with
      | none => exact List.forall_mem_nil _
      | some id => exact List.forall_mem_singleton.mpr trivial

theorem Lowering.stmts_covered (stmts : List Stmt) (sound : ∀ s ∈ stmts, s.Sound ledger)
    (tabled : ∀ v ∈ stmts.flatMap Stmt.statics, v ∈ exe.statics) (base : Nat)
    (labels : Labels) :
    ∀ w ∈ codeOfStmts base labels stmts, exe.Covers w.instruction := by
  induction stmts generalizing base labels with
  | nil => exact List.forall_mem_nil _
  | cons s rest ih =>
      rcases List.forall_mem_cons.mp sound with ⟨own, others⟩
      rcases List.forall_mem_append.mp (List.flatMap_cons ▸ tabled) with ⟨here, later⟩
      rw [codeOfStmts, List.forall_mem_append]
      exact ⟨s.code_covered lists own here base labels, ih others later _ _⟩

theorem Function.code_covered (f : Function) (sound : f.Sound ledger)
    (tabled : ∀ v ∈ f.statics, v ∈ exe.statics)
    (base : Nat) (labels : Labels) : ∀ w ∈ f.code base labels, exe.Covers w.instruction := by
  rcases List.forall_mem_append.mp tabled with ⟨params, stmts⟩
  rw [code, List.forall_mem_append]
  constructor
  · simp only [List.forall_mem_flatMap]
    intro param member
    rw [Param.code]
    cases known : param.id with
    | none => exact List.forall_mem_nil _
    | some id =>
        have own : ⟨param.name, param.ty, .ofNat id.index⟩ ∈ param.statics := by
          simp [Param.statics, known]
        have has : exe.Has param.ty id :=
          ⟨_, params _ (List.mem_flatMap.mpr ⟨param, member, own⟩), rfl, rfl⟩
        exact List.forall_mem_singleton.mpr (covers_store has)
  · exact stmts_covered lists f.stmts sound.2 stmts base labels

end

namespace Program
variable {p : Program} {ledger : Ledger}

theorem executable_lists (sound : p.Sound ledger) (recorded : ledger.vars.toList = p.vars)
    (few : ledger.vars.size ≤ UInt16.size) (labels : Labels) :
    (p.executable labels).Lists ledger := by
  constructor
  · intro id entry known
    have here : p.vars[id.index]? = some entry := by
      rw [← recorded, Array.getElem?_toList]
      exact known
    have slot : (slotted p.vars)[id.index]? = some ⟨entry.name, entry.ty, .ofNat id.index⟩ := by
      rw [slotted, List.getElem?_mapIdx, here]
      rfl
    rw [← executable_statics sound few labels] at slot
    exact ⟨_, List.mem_of_getElem? slot, rfl, rfl⟩
  · intro id entry known
    rw [Ledger.functionAt?, sound.functions] at known
    rcases (by simpa using known : ∃ f, p.functions[id.index]? = some f ∧ f.entry = entry)
      with ⟨f, here, _⟩
    have heading := congrArg (·[id.index]?) (executable_functions sound labels)
    simp only [headings, List.getElem?_map, List.getElem?_mapIdx, here, Option.map_some] at heading
    rcases Option.map_eq_some_iff.mp heading with ⟨compiled, found, same⟩
    exact ⟨compiled, List.mem_of_getElem? found, congrArg (fun heading => heading.2.2.2.1) same⟩

/-- In a sound program the tables cover all code. -/
theorem codes_covered (sound : p.Sound ledger) (labels : Labels)
    (lists : (p.executable labels).Lists ledger) :
    ∀ code ∈ p.codes labels, ∀ w ∈ code, (p.executable labels).Covers w.instruction := by
  have tabled : ∀ v ∈ p.statics, v ∈ (p.executable labels).statics :=
    fun v => List.mem_mergeSort.mpr
  rcases List.forall_mem_append.mp tabled with ⟨top, bodies⟩
  apply p.forall_codes (P := fun code => ∀ w ∈ code,
    (p.executable labels).Covers w.instruction) labels
  · exact stmts_covered lists p.statements (fun s member => sound_statement sound member)
      top 0 labels
  · intro f member
    apply f.code_covered lists (sound_function sound member)
    exact fun v inside => bodies v (List.mem_flatMap.mpr ⟨f, member, inside⟩)

theorem headings_bare (fs : List Function) : headings (fs.map Function.bare) = headings fs := by
  apply List.ext_getElem?
  intro place
  rw [headings, headings, List.getElem?_mapIdx, List.getElem?_mapIdx, List.getElem?_map]
  cases fs[place]? with
  | none => rfl
  | some f =>
      have types : f.bare.paramTypes = f.paramTypes := by
        simp [Function.paramTypes, Function.bare, Function.comp_def, Param.bare]
      simp only [Option.map_some, types]
      simp [Function.bare]

/-- The tables of an executable have the variables and functions of a program in visiting order,
each at its place. -/
structure Tabulated (p : Program) (exe : Executable) : Prop where
  few : p.vars.length ≤ UInt16.size ∧ p.functions.length ≤ UInt16.size
  statics : exe.statics = slotted p.vars
  functions : exe.functions.map CompiledFunction.heading = headings p.functions

theorem tabulated_bare {exe : Executable} (tabulated : p.Tabulated exe) : p.bare.Tabulated exe := by
  constructor
  · rw [bare_vars, bare_functions, List.length_map]
    exact tabulated.few
  · rw [bare_vars]
    exact tabulated.statics
  · rw [bare_functions, headings_bare]
    exact tabulated.functions

theorem lower_tabulates (sound : p.Sound ledger) (recorded : ledger.vars.toList = p.vars)
    {options : LoweringOptions} {exe : Executable} (lowered : p.lower options = .ok exe) :
    p.Tabulated exe ∧ ∃ streams : List (List Placed),
      (exe.bodies.map Prod.snd).map Chunk.instructions = streams.map .ok ∧
        ∀ stream ∈ streams, ∀ placed ∈ stream, exe.Covers placed.instruction := by
  have yields := p.lower_yields options
  rw [lowered] at yields
  rcases yields with ⟨rfl, _, _, statements, functions⟩
  have few := slots_few sound statements functions
  have lists := executable_lists sound recorded few.1 (.empty options.labelLimit)
  constructor
  · exact ⟨vars_count sound ▸ few, executable_statics sound few.1 _, executable_functions sound _⟩
  · refine ⟨_, chunks_decode _ _, ?_⟩
    intro stream member placed inside
    rcases List.mem_map.mp member with ⟨code, own, rfl⟩
    have among : placed.instruction ∈ instructionsOf code := by
      rw [← placedFrom_instructions 0 (instructionsOf code)]
      exact List.mem_map_of_mem inside
    rcases List.mem_map.mp among with ⟨w, written, known⟩
    rw [← known]
    exact codes_covered sound _ lists code own w written

/-- The variables of a compiled program are those that analysis recorded, in that order and each at
its own slot; its functions are in source order; and every slot in its code is one of a table, of
the kind of the variable there. -/
theorem compile_tabulates (p : Program) (fresh : p.Fresh) (settings : Settings) (exe : Executable)
    (compiled : (p.compile settings).2 = .ok exe) :
    (p.analyze (.empty settings.blockLimit)).state.ledger.vars.toList = p.vars ∧
      p.Tabulated exe ∧
      ∃ streams : List (List Placed), (exe.bodies.map Prod.snd).map Chunk.instructions =
      streams.map .ok ∧
        ∀ stream ∈ streams, ∀ placed ∈ stream, exe.Covers placed.instruction := by
  rcases compile_ok compiled with ⟨ended, clean, lowered⟩
  have recorded := analyze_vars fresh ended clean
  -- Analysis left the names, types and signatures of the program as they are.
  have same : (p.compile settings).1.bare = p := analyze_bare fresh ended
  have entries : (p.compile settings).1.vars = p.vars := by rw [← bare_vars, same]
  rcases lower_tabulates (analyze_sound fresh ended clean) (recorded.trans entries.symm)
    lowered with
    ⟨tabulated, covered⟩
  exact ⟨recorded, same ▸ tabulated_bare tabulated, covered⟩

def tabulating : Program :=
  ⟨[.stmt (.declare 1 ⟨"x", .double, some (.int ⟨1, none⟩ 1), none⟩),
    .function ⟨"f", .int, [⟨"a", .int, none⟩, ⟨"b", .double, none⟩], some [
      .declare 3 ⟨"x", .int, some (.name ⟨3, none⟩ "a" none), none⟩,
      .expr 4 (.unary ⟨4, none⟩ .increment (.name ⟨4, none⟩ "x" none))], 2, none⟩,
    .function ⟨"g", .boolean, [⟨"c", .int, none⟩], none, 5, none⟩,
    .stmt (.declare 6 ⟨"y", .boolean,
      some (.call ⟨6, none⟩ (.name ⟨6, none⟩ "g" none) [.int ⟨6, none⟩ 2]), none⟩)]⟩

theorem tabulating_tabulated :
    tabulating.Fresh ∧ ∃ exe, (tabulating.compile .default).2 = .ok exe ∧
      exe.statics = [⟨"x", .double, 0⟩, ⟨"a", .int, 1⟩, ⟨"b", .double, 2⟩,
        ⟨"x", .int, 3⟩, ⟨"y", .boolean, 4⟩] ∧
      exe.functions.map CompiledFunction.heading =
        [("f", .int, [.int, .double], 0, true), ("g", .boolean, [.int], 1, false)] ∧
      ∃ streams : List (List Placed), (exe.bodies.map Prod.snd).map Chunk.instructions =
      streams.map .ok ∧
        ∀ stream ∈ streams, ∀ placed ∈ stream, exe.Covers placed.instruction := by
  have fresh : tabulating.Fresh := by decide
  have succeeds : (tabulating.compile .default).2.isOk = true := by decide +kernel
  rcases exists_of_isOk succeeds with ⟨exe, compiled⟩
  rcases compile_tabulates tabulating fresh .default exe compiled with ⟨_, tables, covered⟩
  exact ⟨fresh, exe, compiled, tables.statics, tables.functions, covered⟩

end Program
end StackCompiler
