import StackCompiler.Proofs.Lowering.Lines
import StackCompiler.Proofs.Typing.Conversions

/-!
Which call a byte of code belongs to, and under which line it is recorded.

The line table of a body is the table of its calls, one after the other. A call that does not set
the line finds the line of the call before it, which is that of the operand just left. So the table
names the node of every call but those between the operands of a compound assignment, and it names
the assignment there only if the value stands on its line.
-/
namespace StackCompiler

open Lowering (generator)

/-! Calls and lines. -/

namespace Call

def line : Call → Nat
  | enterExpr e | betweenExpr e | leaveExpr e => e.line
  | enterStmt s | leaveStmt s => s.line

/-- The line under which the generator records what it writes: that of the node, and between two
operands that of the first of them. -/
def mark : Call → Nat
  | betweenExpr (.binary _ _ left _) => left.line
  | betweenExpr (.assign _ _ _ value) => value.line
  | call => call.line

def sets : Call → Bool
  | betweenExpr _ => false
  | enterExpr _ | leaveExpr _ | enterStmt _ | leaveStmt _ => true

end Call

namespace Lowering

/-- A call records what it writes under its mark, if that is where the emitter stands whenever the
call does not set the line itself. -/
theorem hook_adds {call : Call} {s t : Lowering} (ran : generator.hook call s = .ok () t)
    (stands : call.sets = true ∨ call.mark = s.emitter.line) :
    Emitter.Adds call.mark s.emitter t.emitter := by
  cases call with
  | enterExpr e => exact enterExpr_marks e s () t ran
  | leaveExpr e => exact leaveExpr_marks e s () t ran
  | enterStmt stmt => exact enterStmt_marks stmt s () t ran
  | leaveStmt stmt => exact leaveStmt_marks stmt s () t ran
  | betweenExpr e =>
      rw [stands.resolve_left Bool.false_ne_true]
      exact betweenExpr_steady e s () t ran

/-- Calls from one line to another, where each call finds the line that it does not set. -/
def Leads : Nat → List Call → Nat → Prop
  | line, [], behind => line = behind
  | line, call :: rest, behind =>
      (call.sets = true ∨ call.mark = line) ∧ Leads call.mark rest behind

theorem leads_append {line middle behind : Nat} {calls others : List Call}
    (first : Leads line calls middle)
    (rest : Leads middle others behind) : Leads line (calls ++ others) behind := by
  induction calls generalizing line with
  | nil =>
      cases first
      exact rest
  | cons call _ ih => exact ⟨first.1, ih first.2⟩

theorem leads_each {α : Type} {calls : α → List Call} {last : α → Nat} (members : List α)
    (one : ∀ member ∈ members, ∀ line, Leads line (calls member) (last member)) (line : Nat) :
    ∃ behind, Leads line (members.flatMap calls) behind := by
  induction members generalizing line with
  | nil => exact ⟨line, rfl⟩
  | cons member rest ih =>
      rcases List.forall_mem_cons.mp one with ⟨own, others⟩
      rcases ih others (last member) with ⟨behind, leads⟩
      exact ⟨behind, leads_append (own line) leads⟩

end Lowering

open Lowering (Leads leads_append leads_each)

/-- The calls of an expression leave the line at that of the expression, wherever it was before. -/
theorem Expr.calls_lead (e : Expr) (line : Nat) : Leads line e.calls e.line := by
  have leaving (whole : Expr) (before : Nat) : Leads before [.leaveExpr whole] whole.line :=
    ⟨.inl rfl, rfl⟩
  induction e generalizing line with
  | bool | int | double | name => exact ⟨.inl rfl, .inl rfl, rfl⟩
  | binary note op left right first second =>
      rw [calls]
      exact ⟨.inl rfl, leads_append (leads_append (first _) ⟨.inr rfl, second _⟩) (leaving _ _)⟩
  | assign note op target value first second =>
      rw [calls]
      exact ⟨.inl rfl, leads_append (leads_append (second _) ⟨.inr rfl, first _⟩) (leaving _ _)⟩
  | unary note op operand inner =>
      rw [calls]
      exact ⟨.inl rfl, leads_append (inner _) (leaving _ _)⟩
  | cast note kind operand inner =>
      rw [calls]
      exact ⟨.inl rfl, leads_append (inner _) (leaving _ _)⟩
  | call note callee args target inner =>
      rcases leads_each args inner note.line with ⟨behind, passed⟩
      rw [← callsOfArgs_eq] at passed
      rw [calls]
      exact ⟨.inl rfl, leads_append (leads_append passed (target _)) (leaving _ _)⟩

theorem Stmt.calls_lead (s : Stmt) (line : Nat) : Leads line s.calls s.line := by
  rcases leads_each s.root?.toList (fun root _ => root.calls_lead) s.line with ⟨behind, inside⟩
  exact ⟨.inl rfl, leads_append inside ⟨.inl rfl, rfl⟩⟩

/-! Line tables. -/

def Moment.bytes (m : Moment Lowering) : Nat :=
  m.after.emitter.buffer.size - m.before.emitter.buffer.size

theorem Lowering.chained_lines {moments : List (Moment Lowering)} {s t : Lowering} {behind : Nat}
    (chained : Chained generator.hook s moments t)
    (leads : Leads s.emitter.line (moments.map Moment.call) behind) :
    t.emitter.buffer.lines.toList =
      s.emitter.buffer.lines.toList ++ moments.flatMap fun m =>
      List.replicate m.bytes m.call.mark := by
  -- From one call to the next the emitter stands at the mark of the call before, so the line is
  -- what is carried along.
  induction moments generalizing s with
  | nil =>
      cases chained
      exact (List.append_nil _).symm
  | cons m rest ih =>
      rcases chained with ⟨rfl, ran, others⟩
      rcases leads with ⟨stands, later⟩
      have adds := hook_adds ran stands
      rw [← adds.stands] at later
      rw [ih others later, adds.recorded, List.flatMap_cons, List.append_assoc]
      rfl

def Executable.lineTables (exe : Executable) : List (List Nat) :=
  exe.bodies.map fun body => body.2.lines.toList

/-- The statements of a body, the state in which the generator comes to them, and the line of the
function, under which the code before them is recorded. No code stands before the statements of the
top level. -/
structure Opening where
  line : Nat
  state : Lowering
  stmts : List Stmt

/-- The line table of a body, when what a call writes is recorded under `lineOf`. -/
def Opening.table (lineOf : Call → Nat) (o : Opening) : List Nat :=
  List.replicate o.state.emitter.buffer.size o.line ++
    (generator.moments o.stmts o.state).flatMap fun m => List.replicate m.bytes (lineOf m.call)

namespace Lowering
variable (options : LoweringOptions)

def functionOpening? (shared : Shared) (f : Function) : Option Opening :=
  match f.body, prologue f (start options shared) with
  | some stmts, .ok _ s => some ⟨f.line, s, stmts⟩
  | _, _ => none

def functionOpenings : List Function → Shared → List Opening
  | [], _ => []
  | f :: rest, shared =>
      match function options shared f with
      | .ok (_, after) => (functionOpening? options shared f).toList ++ functionOpenings rest after
      | .error _ => []

end Lowering

def Program.openings (p : Program) (options : LoweringOptions) : List Opening :=
  let shared : Shared := ⟨.empty, .empty options.labelLimit, #[]⟩
  match Lowering.body options shared (generator.walkStmts p.statements) with
  | .ok (_, after) =>
      ⟨1, Lowering.start options shared, p.statements⟩ ::
        Lowering.functionOpenings options p.functions after
  | .error _ => []

theorem filterMap_first {α β : Type} (part : α → Option β) (first : α) (rest : List α) :
    (first :: rest).filterMap part = (part first).toList ++ rest.filterMap part := by
  rw [List.filterMap_cons]
  cases part first <;> rfl

namespace Lowering

structure Accounts (openings : List Opening) (chunks : List Chunk) (bodies : List (List Stmt)) :
    Prop where
  tables : chunks.map (·.lines.toList) = openings.map (Opening.table Call.mark)
  stmts : openings.map Opening.stmts = bodies
  ran : ∀ o ∈ openings, ∃ t, generator.walkStmts o.stmts o.state = .ok () t

namespace Accounts

theorem nothing : Accounts [] [] [] := ⟨rfl, rfl, fun _ absent => by cases absent⟩

theorem append {openings others : List Opening} {chunks further : List Chunk}
    {bodies more : List (List Stmt)}
    (first : Accounts openings chunks bodies) (rest : Accounts others further more) :
    Accounts (openings ++ others) (chunks ++ further) (bodies ++ more) where
  tables := by rw [List.map_append, List.map_append, first.tables, rest.tables]
  stmts := by rw [List.map_append, first.stmts, rest.stmts]
  ran := List.forall_mem_append.mpr ⟨first.ran, rest.ran⟩

theorem single {o : Opening} {t : Lowering} (ran : generator.walkStmts o.stmts o.state = .ok () t)
    (before : o.state.emitter.buffer.lines.toList =
      List.replicate o.state.emitter.buffer.size o.line) :
    Accounts [o] [t.emitter.buffer.finish] [o.stmts] where
  tables := by
    rcases generator.moments_ran ran with ⟨calls, chained⟩
    rcases leads_each o.stmts (fun s _ => s.calls_lead) o.state.emitter.line with ⟨behind, leads⟩
    rw [← calls] at leads
    have lines := chained_lines chained leads
    rw [before] at lines
    exact congrArg (fun table => [table]) lines
  stmts := rfl
  ran := List.forall_mem_singleton.mpr ⟨t, ran⟩

end Accounts

section
variable (options : LoweringOptions)

theorem body_ran (shared : Shared) (steps : Lower Unit) :
    Yields (body options shared steps)
      (fun made => ∃ t, steps (start options shared) = .ok () t ∧ made.1 = t.emitter.buffer.finish)
      (fun _ => True) := by
  unfold body
  cases ran : steps (start options shared) with
  | error fault t => trivial
  | ok _ t =>
      show Yields (if t.emitter.labels.depth = 0 then _ else _) _ _
      split
      · exact ⟨t, rfl, rfl⟩
      · trivial

theorem function_accounts (f : Function) (shared : Shared) :
    Yields (function options shared f)
      (fun made => Accounts (functionOpening? options shared f).toList made.1.code.toList
        f.body.toList)
      (fun _ => True) := by
  unfold function functionOpening?
  split
  · trivial
  split
  · rename_i host
    rw [host]
    exact yields_bind (slot_yields _ _) (fun _ _ => trivial) fun _ _ => Accounts.nothing
  · rename_i stmts provided
    rw [provided]
    apply yields_bind (body_ran options shared _) (fun _ _ => trivial)
    rintro ⟨code, after⟩ ⟨t, ran, rfl⟩
    apply yields_bind (slot_yields _ _) (fun _ _ => trivial)
    intro slot _
    rcases bind_ok ran with ⟨_, s, opened, walked⟩
    rw [opened]
    -- The prologue begins with an empty buffer.
    have fresh : (start options shared).emitter.buffer.lines = #[] := Buffer.empty_lines _ _
    have recorded := (prologue_marks f _ () s opened).recorded
    rw [fresh] at recorded
    exact Accounts.single walked recorded

theorem functions_account (fs : List Function) (shared : Shared)
    (compiled : Array CompiledFunction) :
    Yields (fs.foldlM (fun (compiled, shared) f => do
        let (next, shared) ← function options shared f
        return (compiled.push next, shared)) (compiled, shared))
      (fun made => ∃ more, made.1.toList = compiled.toList ++ more ∧
        Accounts (functionOpenings options fs shared) (more.filterMap CompiledFunction.code)
          (fs.filterMap Function.body))
      (fun _ => True) := by
  induction fs generalizing shared compiled with
  | nil => exact ⟨[], (List.append_nil _).symm, Accounts.nothing⟩
  | cons f rest ih =>
      have own := function_accounts options f shared
      rw [List.foldlM_cons, bind_assoc, functionOpenings]
      cases made : function options shared f with
      | error fault => trivial
      | ok found =>
          rcases found with ⟨next, after⟩
          rw [made] at own
          apply yields_weaken (ih after (compiled.push next))
          · rintro ⟨all, last⟩ ⟨more, same, others⟩
            refine ⟨next :: more, ?_, ?_⟩
            · rw [same, Array.toList_push, List.append_assoc]
              rfl
            · have both := own.append others
              rwa [← filterMap_first, ← filterMap_first] at both
          · exact fun _ _ => trivial

end

end Lowering

namespace Program
open Lowering

theorem lower_accounts (p : Program) (options : LoweringOptions) :
    Yields (p.lower options)
      (fun exe => Accounts (p.openings options) (exe.bodies.map Prod.snd)
        (p.statements :: p.functions.filterMap Function.body)) (fun _ => True) := by
  unfold lower openings
  dsimp only
  have top :=
    body_ran options ⟨.empty, .empty options.labelLimit, #[]⟩ (generator.walkStmts p.statements)
  cases made :
    body options ⟨.empty, .empty options.labelLimit, #[]⟩ (generator.walkStmts p.statements) with
  | error fault => trivial
  | ok found =>
      rcases found with ⟨code, after⟩
      rw [made] at top
      rcases top with ⟨t, ran, rfl⟩
      apply yields_bind (functions_account options p.functions after #[]) (fun _ _ => trivial)
      rintro ⟨compiled, last⟩ ⟨more, same, functions⟩
      have listed : compiled.toList = more := same
      have opened :
          Accounts [⟨1, start options _, p.statements⟩] [t.emitter.buffer.finish] [p.statements] :=
        Accounts.single ran (congrArg Array.toList (Buffer.empty_lines _ _))
      have both := opened.append functions
      show Accounts _ ((Executable.bodies ⟨_, _, _, compiled.toList⟩).map Prod.snd) _
      simpa [Executable.bodies, listed, List.map_filterMap, Function.comp_def] using both

end Program

/-! Where the line table names the node. -/

/-- A compound assignment has its value on its own line. -/
def Expr.LinedUp : Expr → Prop
  | assign note (.compound _) _ value => value.line = note.line
  | _ => True

instance : DecidablePred Expr.LinedUp
  | .assign note (.compound _) _ value => inferInstanceAs (Decidable (value.line = note.line))
  | .assign _ .plain _ _ | .bool .. | .int .. | .double .. | .name .. | .binary .. | .unary ..
    | .call .. | .cast .. =>
      inferInstanceAs (Decidable True)

def Stmt.LinedUp (s : Stmt) : Prop := ∀ root ∈ s.root?, ∀ node ∈ root.nodes, node.LinedUp

def Program.LinedUp (p : Program) : Prop := ∀ stmts ∈ p.bodies, ∀ s ∈ stmts, s.LinedUp

instance : DecidablePred Program.LinedUp := fun p =>
  inferInstanceAs (Decidable (∀ stmts ∈ p.bodies, ∀ s ∈ stmts, ∀ root ∈ s.root?,
    ∀ node ∈ root.nodes, node.LinedUp))

/-- Only between the operands of a compound assignment something is written without setting the
line. -/
def Call.LinedUp : Call → Prop
  | betweenExpr e => e.LinedUp
  | enterExpr _ | leaveExpr _ | enterStmt _ | leaveStmt _ => True

namespace Lowering

theorem demand_keeps {α : Type} {answer : Except Fault α} {s t : Lowering} {found : α}
    (ran : demand answer s = .ok found t) : t = s := by
  have met := meets_demand answer s
  rw [Meets, ran] at met
  exact met.2

theorem emit_grows {opcode : Opcode} {s t : Lowering} (ran : emit opcode s = .ok () t) :
    s.emitter.buffer.size < t.emitter.buffer.size := by
  have wrote := emitting_ok ran
  rcases s.emitter.write_ran wrote with ⟨_, after⟩
  rw [after]
  show s.emitter.buffer.size < (s.emitter.buffer.write _ s.emitter.line).size
  rw [(s.emitter.buffer.write_adds _ _).1]
  exact Nat.lt_add_of_pos_right (Nat.succ_pos _)

/-- A call that ran recorded what it wrote under the line of its node exactly if it is lined up. -/
theorem hook_lined {call : Call} {s t : Lowering} (ran : generator.hook call s = .ok () t) :
    List.replicate (Moment.mk call s t).bytes call.mark =
      List.replicate (Moment.mk call s t).bytes call.line ↔
      call.LinedUp := by
  have silent (same : t.emitter = s.emitter) : (Moment.mk call s t).bytes = 0 := by
    rw [Moment.bytes, same, Nat.sub_self]
  cases call with
  | enterExpr | leaveExpr | enterStmt | leaveStmt => exact iff_of_true rfl trivial
  | betweenExpr e =>
      cases e with
      | bool | int | double | name | unary | cast | call => exact iff_of_true rfl trivial
      | binary note op left right =>
          cases ran
          rw [silent rfl]
          exact iff_of_true rfl trivial
      | assign note op target value =>
          cases op with
          | plain =>
              cases ran
              rw [silent rfl]
              exact iff_of_true rfl trivial
          | compound op =>
              rcases bind_ok ran with ⟨ty, early, known, chosen⟩
              rcases bind_ok chosen with ⟨opcode, late, found, emitted⟩
              rcases bind_ok emitted with ⟨_, grown, wrote, last⟩
              cases last
              rw [demand_keeps found, demand_keeps known] at wrote
              have more :
                (Moment.mk (.betweenExpr (.assign note (.compound op) target value)) s _).bytes ≠
                0 :=
                Nat.sub_ne_zero_of_lt (emit_grows wrote)
              rw [List.replicate_inj]
              exact ⟨fun same => same.2.resolve_left more, fun lined => ⟨rfl, .inr lined⟩⟩

end Lowering

theorem flatMap_eq_iff {α β : Type} {f g : α → List β}
    (even : ∀ x, (f x).length = (g x).length) (members : List α) :
    members.flatMap f = members.flatMap g ↔ ∀ x ∈ members, f x = g x := by
  induction members with
  | nil => exact iff_of_true rfl (List.forall_mem_nil _)
  | cons x rest ih =>
      rw [List.flatMap_cons, List.flatMap_cons, List.forall_mem_cons, ← ih]
      constructor
      · exact fun same => List.append_inj same (even x)
      · rintro ⟨first, others⟩
        rw [first, others]

theorem Call.linedUp_around {opening closing : Call} (inner : List Call) (enters : opening.LinedUp)
    (leaves : closing.LinedUp) :
    (∀ call ∈ opening :: (inner ++ [closing]), call.LinedUp) ↔
      ∀ call ∈ inner, call.LinedUp := by
  -- Entering and leaving a node asks for nothing, so only the calls inside count.
  rw [List.forall_mem_cons, List.forall_mem_append, List.forall_mem_singleton]
  exact ⟨fun all => all.2.1, fun all => ⟨enters, all, leaves⟩⟩

theorem Expr.calls_linedUp (e : Expr) :
    (∀ call ∈ e.calls, call.LinedUp) ↔ ∀ node ∈ e.nodes, node.LinedUp := by
  have around (whole : Expr) (inner : List Call) :
      (∀ call ∈ .enterExpr whole :: (inner ++ [.leaveExpr whole]), call.LinedUp) ↔
      ∀ call ∈ inner, call.LinedUp :=
    Call.linedUp_around inner trivial trivial
  induction e with
  | bool | int | double | name =>
      rw [calls, around]
      exact iff_of_true (List.forall_mem_nil _) (List.forall_mem_singleton.mpr trivial)
  | binary note op left right first second =>
      rw [calls, around, List.forall_mem_append, List.forall_mem_cons, forall_nodes_binary]
      exact ⟨fun all => ⟨⟨first.mp all.1, second.mp all.2.2⟩, trivial⟩,
        fun all => ⟨first.mpr all.1.1, trivial, second.mpr all.1.2⟩⟩
  | assign note op target value first second =>
      rw [calls, around, List.forall_mem_append, List.forall_mem_cons, forall_nodes_assign]
      exact ⟨fun all => ⟨⟨second.mp all.1, first.mp all.2.2⟩, all.2.1⟩,
        fun all => ⟨second.mpr all.1.1, all.2, first.mpr all.1.2⟩⟩
  | unary note op operand inner =>
      rw [calls, around, forall_nodes_unary]
      exact inner.trans (and_iff_left trivial).symm
  | cast note kind operand inner =>
      rw [calls, around, forall_nodes_cast]
      exact inner.trans (and_iff_left trivial).symm
  | call note callee args target inner =>
      have passed : (∀ call ∈ args.flatMap calls, call.LinedUp) ↔
        ∀ arg ∈ args, ∀ node ∈ arg.nodes, node.LinedUp := by
        rw [List.forall_mem_flatMap]
        exact forall_congr' fun arg => forall_congr' fun member => inner arg member
      rw [calls, around, List.forall_mem_append, callsOfArgs_eq, forall_nodes_call, passed]
      exact (and_congr_right' target).trans (and_iff_left trivial).symm

theorem Stmt.calls_linedUp (s : Stmt) : (∀ call ∈ s.calls, call.LinedUp) ↔ s.LinedUp := by
  have entering : (Call.enterStmt s).LinedUp := trivial
  have leaving : (Call.leaveStmt s).LinedUp := trivial
  rw [calls, Call.linedUp_around _ entering leaving]
  simp only [List.forall_mem_flatMap, Expr.calls_linedUp, Option.mem_toList]
  exact Iff.rfl

theorem Opening.table_own {o : Opening} {t : Lowering}
    (ran : generator.walkStmts o.stmts o.state = .ok () t) :
    o.table Call.mark = o.table Call.line ↔ ∀ s ∈ o.stmts, s.LinedUp := by
  rcases generator.moments_ran ran with ⟨calls, chained⟩
  have each : ∀ m ∈ generator.moments o.stmts o.state,
      List.replicate m.bytes m.call.mark = List.replicate m.bytes m.call.line ↔ m.call.LinedUp :=
    fun m member => Lowering.hook_lined (chained_ran chained m member)
  unfold table
  rw [List.append_right_inj,
    flatMap_eq_iff fun m => by rw [List.length_replicate, List.length_replicate]]
  calc (∀ m ∈ generator.moments o.stmts o.state,
        List.replicate m.bytes m.call.mark = List.replicate m.bytes m.call.line)
      ↔ ∀ m ∈ generator.moments o.stmts o.state, m.call.LinedUp :=
        forall_congr' fun m => forall_congr' (each m)
    _ ↔ ∀ call ∈ o.stmts.flatMap Stmt.calls, call.LinedUp := by
      rw [← calls, List.forall_mem_map]
    _ ↔ ∀ s ∈ o.stmts, s.LinedUp := by simp only [List.forall_mem_flatMap, Stmt.calls_linedUp]

namespace Program
open Lowering

theorem linedUp_iff (p : Program) :
    p.LinedUp ↔ ∀ stmts ∈ p.statements :: p.functions.filterMap Function.body,
    ∀ s ∈ stmts, s.LinedUp := by
  rw [LinedUp, bodies, List.forall_mem_cons, List.forall_mem_cons, List.forall_mem_map,
    List.forall_mem_filterMap]
  refine and_congr_right' (forall_congr' fun f => forall_congr' fun _ => ?_)
  unfold Function.stmts
  cases f.body with
  | none => exact iff_of_true (List.forall_mem_nil _) fun _ absent => by cases absent
  | some stmts =>
      exact ⟨fun all _ same => Option.some.inj same ▸ all, fun all => all stmts rfl⟩

/-- The line tables of an executable, whatever the tree is that it was generated from. -/
theorem lower_lines (p : Program) (options : LoweringOptions) (exe : Executable)
    (lowered : p.lower options = .ok exe) :
    exe.lineTables = (p.openings options).map (Opening.table Call.mark) ∧
      (exe.lineTables = (p.openings options).map (Opening.table Call.line) ↔ p.LinedUp) := by
  have accounts := p.lower_accounts options
  rw [lowered] at accounts
  have tables : exe.lineTables = (p.openings options).map (Opening.table Call.mark) := by
    rw [← accounts.tables, List.map_map]
    rfl
  refine ⟨tables, ?_⟩
  rw [tables, linedUp_iff, ← accounts.stmts, List.forall_mem_map, List.map_inj_left]
  refine forall_congr' fun o => forall_congr' fun member => ?_
  rcases accounts.ran o member with ⟨t, ran⟩
  exact Opening.table_own ran

end Program

/-! Analysis moves no value to another line. -/

theorem Expr.wrapped_line (e : Expr) (needed : Option Cast) : (e.wrapped needed).line = e.line := by
  cases needed <;> rfl

theorem Ledger.typeExpr_line (ledger : Ledger) (e : Expr) :
    (ledger.typeExpr e).node.line = e.line := by
  cases e with
  | bool | int | double | cast => rfl
  | name note identifier binding =>
      unfold typeExpr typeName
      split <;> rfl
  | binary note op left right =>
      rcases Typing.binary_wraps note.line op (ledger.typeExpr left).node
        (ledger.typeExpr right).node with ⟨ty, shape⟩
      have line := congrArg Expr.line shape
      exact line
  | unary note op operand =>
      rcases Typing.unary_keeps note.line op (ledger.typeExpr operand).node with ⟨ty, shape⟩
      have line := congrArg Expr.line shape
      exact line
  | assign note op target value =>
      rcases Typing.assign_wraps note.line op (ledger.typeExpr target).node
        (ledger.typeExpr value).node with ⟨ty, shape⟩
      have line := congrArg Expr.line shape
      exact line
  | call note callee args =>
      rcases ledger.typeCall_wraps note.line (ledger.typeExpr callee).node
        (ledger.typeArgs args).node with ⟨ty, shape⟩
      have line := congrArg Expr.line shape
      exact line

theorem Expr.linedUp_alone {ledger : Ledger} {e : Expr} (plain : e.cast? = none)
    (same : (ledger.typeExpr e.bare).node = e) : e.LinedUp ↔ e.bare.LinedUp := by
  cases e with
  | cast => cases plain
  | assign note op target value =>
      cases op with
      | plain => exact Iff.rfl
      | compound op =>
          rcases Typing.assign_wraps note.line (.compound op) (ledger.typeExpr target.bare).node
            (ledger.typeExpr value.bare).node with ⟨ty, shape⟩
          have typed := Expr.assign.inj (shape.symm.trans same)
          have kept := congrArg Expr.line typed.2.2.2
          rw [wrapped_line, ledger.typeExpr_line] at kept
          show value.line = note.line ↔ value.bare.line = note.line
          rw [kept]
  | _ => exact Iff.rfl

theorem Expr.linedUp_bare {ledger : Ledger} {e : Expr}
    (alone : ∀ node ∈ e.nodes, node.cast? = none → (ledger.typeExpr node.bare).node = node) :
    (∀ node ∈ e.nodes, node.LinedUp) ↔ ∀ node ∈ e.bare.nodes, node.LinedUp := by
  rw [bare_nodes, List.forall_mem_map, originals, List.forall_mem_filter]
  refine forall_congr' fun node => forall_congr' fun member => ?_
  cases node with
  | cast => exact iff_of_true trivial fun plain => by cases plain
  | _ =>
      have same := linedUp_alone rfl (alone _ member rfl)
      exact ⟨fun lined _ => same.mp lined, fun lined => same.mpr (lined rfl)⟩

namespace Stmt

theorem bare_root (s : Stmt) : s.bare.root? = s.root?.map Expr.bare := by
  cases s with
  | declare line decl => cases init : decl.init <;> simp [root?, bare, init]
  | _ => rfl

theorem linedUp_bare {ledger : Ledger} {s : Stmt} (converted : s.Converted ledger) :
    s.LinedUp ↔ s.bare.LinedUp := by
  rcases converted.alone with ⟨moment, _, alone⟩
  unfold LinedUp
  rw [bare_root]
  cases holds : s.root? with
  | none => exact iff_of_true (fun _ absent => by cases absent) (fun _ absent => by cases absent)
  | some root =>
      have whole := Expr.linedUp_bare (alone root holds)
      simpa only [Option.map_some, Option.mem_def, Option.some.injEq, forall_eq'] using whole

end Stmt

namespace Program

theorem analyze_linedUp {p : Program} (fresh : p.Fresh) {limit : Nat}
    (ended : (p.analyze (.empty limit)).stopped = none) :
    (p.analyze (.empty limit)).node.LinedUp ↔ p.LinedUp := by
  rcases analyze_converts p fresh limit ended with ⟨same, converted⟩
  generalize (p.analyze (.empty limit)).node = tree at same converted
  have each : ∀ stmts ∈ tree.bodies, ∀ s ∈ stmts, s.LinedUp ↔ s.bare.LinedUp := by
    rw [bodies, List.forall_mem_cons, List.forall_mem_map]
    constructor
    · exact fun s member => Stmt.linedUp_bare (converted _ (mem_statements.mp member))
    · intro f member s within
      have own := converted _ (mem_functions.mp member) s within
      by_cases given : f.id.isSome
      · rw [if_pos given] at own
        exact Stmt.linedUp_bare own
      · rw [if_neg given] at own
        rw [s.bare_fresh own]
  rw [← same, LinedUp, LinedUp, bare_bodies, List.forall_mem_map]
  refine forall_congr' fun stmts => forall_congr' fun member => ?_
  rw [List.forall_mem_map]
  exact forall_congr' fun s => forall_congr' fun within => each stmts member s within

/-- The line table of every body of a compiled program is that of its calls, one after the other. It
names the node of every call, and the function in front of them, exactly if every compound
assignment of the program has its value on its own line. -/
theorem compile_lines (p : Program) (fresh : p.Fresh) (settings : Settings) (exe : Executable)
    (compiled : (p.compile settings).2 = .ok exe) :
    exe.lineTables = ((p.compile settings).1.openings settings.lowering).map
      (Opening.table Call.mark) ∧
      (exe.lineTables = ((p.compile settings).1.openings settings.lowering).map
        (Opening.table Call.line) ↔
        p.LinedUp) := by
  rcases compile_ok compiled with ⟨ended, _, lowered⟩
  have tables := lower_lines _ _ exe lowered
  have same : (p.compile settings).1.LinedUp ↔ p.LinedUp := analyze_linedUp fresh ended
  exact ⟨tables.1, tables.2.trans same⟩

def accruing : Program :=
  ⟨[.stmt (.declare 1 ⟨"x", .double, none, none⟩),
    .function ⟨"f", .int, [⟨"a", .int, none⟩, ⟨"b", .int, none⟩], some [
      .expr 4 (.assign ⟨4, none⟩ (.compound .add) (.name ⟨3, none⟩ "a" none)
        (.binary ⟨4, none⟩ (.arith .mul) (.name ⟨5, none⟩ "a" none)
          (.name ⟨6, none⟩ "b" none)))], 2, none⟩,
    .stmt (.expr 7 (.assign ⟨8, none⟩ (.compound .sub) (.name ⟨9, none⟩ "x" none)
      (.int ⟨8, none⟩ 1)))]⟩

theorem accruing_lines :
    accruing.Fresh ∧ accruing.LinedUp ∧ ∃ exe, (accruing.compile .default).2 = .ok exe ∧
      exe.lineTables = ((accruing.compile .default).1.openings .default).map
        (Opening.table Call.line) := by
  have fresh : accruing.Fresh := by decide
  have lined : accruing.LinedUp := by decide
  have succeeds : (accruing.compile .default).2.isOk = true := by decide +kernel
  rcases exists_of_isOk succeeds with ⟨exe, compiled⟩
  exact ⟨fresh, lined, exe, compiled,
    (compile_lines accruing fresh .default exe compiled).2.mpr lined⟩

def trailing : Program :=
  ⟨[.stmt (.declare 1 ⟨"x", .int, none, none⟩),
    .stmt (.expr 2 (.assign ⟨2, none⟩ (.compound .add) (.name ⟨2, none⟩ "x" none)
      (.int ⟨3, none⟩ 1)))]⟩

theorem trailing_misplaced :
    trailing.Fresh ∧
      (trailing.compile .default).2.toOption.map Executable.lineTables =
        some [[2, 2, 2, 3, 3, 3, 3, 2, 2, 2]] ∧
      ((trailing.compile .default).1.openings .default).map (Opening.table Call.line) =
        [[2, 2, 2, 3, 3, 3, 2, 2, 2, 2]] := by
  decide +kernel

end Program

end StackCompiler
