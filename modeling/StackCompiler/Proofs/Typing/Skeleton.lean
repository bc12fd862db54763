import StackCompiler.Proofs.Typing.Resolution

/-!
What a fault of the analysis depends on.

A mistake is reported and the analysis goes on, so of all there is in a program only the block
markers can stop it, and of the functions only their names and bodies matter: a body behind a
function of the same name is not looked into. These make up the skeleton of a program. The analysis
moves through it by the number of open blocks alone, and where it stops, or that it does not, can be
read off the skeleton.
-/
namespace StackCompiler

structure Level where
  depth : Nat
  limit : Nat
deriving DecidableEq, Repr

def Ledger.level (ledger : Ledger) : Level := ⟨ledger.depth, ledger.limit⟩

namespace Level

def cross (level : Level) : Boundary → Except Fault Level
  | .begins =>
      if level.limit ≤ level.depth then .error (.blockOverflow level.limit)
      else .ok ⟨level.depth + 1, level.limit⟩
  | .ends =>
      if level.depth = 0 then .error .blockUnderflow else .ok ⟨level.depth - 1, level.limit⟩

def leave (outer : Nat) (level : Level) : Except Fault Level :=
  if outer + 1 < level.depth then .error (.unclosedBlocks (level.depth - outer - 1))
  else if level.depth < outer + 1 then .error .blockUnderflow
  else level.cross .ends

def through (level : Level) (body : List Boundary) : Except Fault Level := do
  let inner ← level.cross .begins
  let reached ← body.foldlM cross inner
  reached.leave level.depth

end Level

/-- What a fault can depend on: the name of a function with the markers of its body, and a marker
outside of functions. -/
inductive Landmark
  | function (name : String) (body : Option (List Boundary))
  | boundary (b : Boundary)
deriving DecidableEq, Repr

namespace Landmark

/-- Goes through the landmarks behind functions of the names in `seen`. -/
def travel : (seen : List String) → List Landmark → Level → Except Fault Level
  | _, [], level => .ok level
  | seen, .boundary b :: rest, level => do
      let behind ← level.cross b
      travel seen rest behind
  | seen, .function name body :: rest, level =>
      if name ∈ seen then travel seen rest level
      else do
        let behind ← body.elim (.ok level) level.through
        travel (name :: seen) rest behind

def fault? (limit : Nat) (skeleton : List Landmark) : Option Fault :=
  match travel [] skeleton ⟨0, limit⟩ with
  | .error fault => some fault
  | .ok level => if level.depth = 0 then none else some (.unclosedBlocks level.depth)

end Landmark

def Stmt.boundary? : Stmt → Option Boundary
  | beginBlock _ => some .begins
  | endBlock _ => some .ends
  | expr .. | declare .. | enterIf .. | leaveIf _ => none

def Item.landmark? : Item → Option Landmark
  | function f => some (.function f.name (f.body.map (·.filterMap Stmt.boundary?)))
  | stmt s => s.boundary?.map .boundary

def Program.skeleton (p : Program) : List Landmark := p.items.filterMap Item.landmark?

namespace Analysis
variable {a : Analysis}

/-! What is declared does not change the level. -/

@[simp] theorem declare_level (a : Analysis) (name : String) (ty : Ty) (line : Nat) :
    (a.declare name ty line).2.ledger.level = a.ledger.level := by
  unfold declare
  simp only
  split <;> rfl

@[simp] theorem checkDeclaration_level (line : Nat) (decl : Declaration) (a : Analysis) :
    (checkDeclaration line decl a).2.ledger.level = a.ledger.level := by
  have level := declare_level a decl.name decl.ty line
  unfold checkDeclaration
  split
  · rename_i next declared
    rw [declared] at level
    exact level
  · rename_i id next declared
    rw [declared] at level
    split <;> exact level

@[simp] theorem declareParams_level (line : Nat) (params : List Param) (a : Analysis) :
    (declareParams line params a).2.ledger.level = a.ledger.level := by
  induction params generalizing a with
  | nil => rfl
  | cons param rest ih =>
      rw [declareParams_cons]
      exact (ih _).trans (declare_level ..)

theorem registerItem_level (item : Item) (a : Analysis) :
    (registerItem item a).state.ledger.level = a.ledger.level := by
  cases item with
  | stmt s => rfl
  | function f =>
      simp only [registerItem, registerFunction, Visit.done]
      split <;> rfl

theorem register_level (items : List Item) (a : Analysis) :
    (Visit.each registerItem items a).state.ledger.level = a.ledger.level := by
  induction items generalizing a with
  | nil => rfl
  | cons item rest ih =>
      have first := registerItem_level item a
      rw [Visit.each_cons]
      rcases registered : registerItem item a with ⟨node, next, _ | fault⟩
      · rw [registered] at first
        exact (ih next).trans first
      · rw [registered] at first
        exact first

theorem openBlock_crosses (ledger : Ledger) :
    ledger.openBlock.map Ledger.level = ledger.level.cross .begins := by
  unfold Ledger.openBlock Level.cross
  by_cases full : ledger.limit ≤ ledger.depth
  · rw [if_pos full, if_pos (show ledger.level.limit ≤ ledger.level.depth from full)]
    rfl
  · rw [if_neg full, if_neg (show ¬ ledger.level.limit ≤ ledger.level.depth from full)]
    rfl

theorem closeBlock_crosses (ledger : Ledger) :
    ledger.closeBlock.map Ledger.level = ledger.level.cross .ends := by
  unfold Ledger.closeBlock Level.cross
  by_cases outermost : ledger.depth = 0
  · rw [if_pos outermost, if_pos (show ledger.level.depth = 0 from outermost)]
    rfl
  · rw [if_neg outermost, if_neg (show ¬ ledger.level.depth = 0 from outermost)]
    rfl

theorem closeBody_leaves (outer : Nat) (ledger : Ledger) :
    (closeBody outer ledger).map Ledger.level = ledger.level.leave outer := by
  have closing := closeBlock_crosses ledger
  unfold closeBody Level.leave
  by_cases above : outer + 1 < ledger.depth
  · rw [if_pos above, if_pos (show outer + 1 < ledger.level.depth from above)]
    rfl
  · rw [if_neg above, if_neg (show ¬ outer + 1 < ledger.level.depth from above)]
    by_cases below : ledger.depth < outer + 1
    · rw [if_pos below, if_pos (show ledger.level.depth < outer + 1 from below)]
      rfl
    · rw [if_neg below, if_neg (show ¬ ledger.level.depth < outer + 1 from below)]
      exact closing

/-- Where a visit got: the level behind it, or the fault it stopped with. -/
def reached {α : Type} (visit : Checking α) : Except Fault Level :=
  match visit.stopped with
  | none => .ok visit.state.ledger.level
  | some fault => .error fault

theorem reached_cons {α : Type} {f : α → Analysis → Checking α} {member : α}
    {rest : List α} (onward : Level → Except Fault Level)
    (others : ∀ a, reached (Visit.each f rest a) = onward a.ledger.level) :
    reached (Visit.each f (member :: rest) a) = reached (f member a) >>= onward := by
  rw [Visit.each_cons]
  rcases f member a with ⟨node, next, _ | fault⟩
  · exact others next
  · rfl

theorem crossing_reached (s : Stmt) (step : Ledger → Except Fault Ledger) :
    reached (crossing s a step) = (step a.ledger).map Ledger.level := by
  unfold crossing
  cases step a.ledger <;> rfl

theorem checkStmt_reached (s : Stmt) (a : Analysis) :
    reached (checkStmt s a) = s.boundary?.elim (.ok a.ledger.level) a.ledger.level.cross := by
  cases s with
  | expr | enterIf | leaveIf => rfl
  | declare line decl =>
      rcases decl with ⟨name, ty, _ | init, id⟩
      · exact congrArg Except.ok (checkDeclaration_level ..)
      · exact congrArg Except.ok (checkDeclaration_level ..)
  | beginBlock line => exact (crossing_reached _ _).trans (openBlock_crosses _)
  | endBlock line => exact (crossing_reached _ _).trans (closeBlock_crosses _)

theorem checkStmts_reached (stmts : List Stmt) (a : Analysis) :
    reached (Visit.each checkStmt stmts a) =
      (stmts.filterMap Stmt.boundary?).foldlM Level.cross a.ledger.level := by
  induction stmts generalizing a with
  | nil => rfl
  | cons s rest ih =>
      rw [reached_cons (fun level => (rest.filterMap Stmt.boundary?).foldlM Level.cross level) ih,
        checkStmt_reached]
      cases marker : s.boundary? with
      | none =>
          rw [List.filterMap_cons_none marker]
          rfl
      | some b =>
          rw [List.filterMap_cons_some marker]
          rfl

/-- A body is gone through by its markers, whatever its parameters are. -/
theorem checkBody_reached (f : Function) (body : List Stmt) (a : Analysis) :
    reached (checkBody f body a) = a.ledger.level.through (body.filterMap Stmt.boundary?) := by
  have opening := openBlock_crosses a.ledger
  unfold checkBody Level.through
  rw [← opening]
  cases a.ledger.openBlock with
  | error fault => rfl
  | ok ledger =>
      have inside :=
        checkStmts_reached body (declareParams f.line f.params ⟨ledger, a.diagnostics⟩).2
      rw [declareParams_level] at inside
      simp only [Except.map, bind, Except.bind]
      rw [← inside]
      rcases Visit.each checkStmt body
        (declareParams f.line f.params ⟨ledger, a.diagnostics⟩).2 with
        ⟨nodes, next, _ | fault⟩
      · have closing := closeBody_leaves a.ledger.depth next.ledger
        cases closes : closeBody a.ledger.depth next.ledger with
        | error fault =>
            rw [closes] at closing
            exact closing
        | ok ledger =>
            rw [closes] at closing
            exact closing
      · rfl

/-- The second pass goes through the landmarks: of the functions of a name only the first has an
id. -/
theorem checkItems_reached (items : List Item) (fresh : ∀ item ∈ items, item.Fresh)
    (seen : List String) (a : Analysis) :
    reached (Visit.each checkItem (numbered seen items) a) =
      Landmark.travel seen (items.filterMap Item.landmark?) a.ledger.level := by
  induction items generalizing seen a with
  | nil => rfl
  | cons item rest ih =>
      rcases List.forall_mem_cons.mp fresh with ⟨own, others⟩
      have onward (seen : List String) {item : Item} :
          reached (Visit.each checkItem (item :: numbered seen rest) a) =
            reached (checkItem item a) >>= Landmark.travel seen (rest.filterMap Item.landmark?) :=
        reached_cons _ (ih others seen)
      cases item with
      | stmt s =>
          have here : reached (checkItem (.stmt s) a) = _ := checkStmt_reached s a
          rw [numbered, onward seen, here]
          cases marker : s.boundary? with
          | none =>
              rw [List.filterMap_cons_none (by rw [Item.landmark?, marker]; rfl)]
              rfl
          | some b =>
              rw [List.filterMap_cons_some (by rw [Item.landmark?, marker]; rfl)]
              rfl
      | function f =>
          rcases f with ⟨name, returns, params, body, line, id⟩
          obtain rfl : id = none := own.1
          have landmark : (Item.function ⟨name, returns, params, body, line, none⟩).landmark? =
              some (.function name (body.map (·.filterMap Stmt.boundary?))) := rfl
          rw [List.filterMap_cons_some landmark, numbered, Landmark.travel]
          by_cases again : name ∈ seen
          · have skipped :
              reached (checkItem (.function ⟨name, returns, params, body, line, none⟩) a) =
                .ok a.ledger.level := by cases body <;> rfl
            rw [if_pos again, if_pos again, onward seen, skipped]
            rfl
          · rw [if_neg again, if_neg again, onward (name :: seen)]
            cases body with
            | none => rfl
            | some body =>
                let f : Function :=
                  ⟨name, returns, params, some body, line, some ⟨seen.length⟩⟩
                have inside : reached (checkItem (.function f) a) = _ := checkBody_reached f body a
                rw [inside]
                rfl

theorem checkClosed_stopped (items : List Item) (a : Analysis) :
    (checkClosed items a).stopped = if a.ledger.depth =
      0 then none else some (.unclosedBlocks a.ledger.depth) := by
  unfold checkClosed
  split <;> rfl

end Analysis

namespace Program

/-- The fault that the analysis of a program ends with is that of its skeleton. -/
theorem analyze_fault {p : Program} (fresh : p.Fresh) (limit : Nat) :
    (p.analyze (.empty limit)).stopped = Landmark.fault? limit p.skeleton := by
  have empty : (Analysis.mk (.empty limit) #[]).ledger.Reads [] .start := reads_empty limit
  rcases Analysis.register_numbers p.items fresh empty rfl with ⟨ran, nodes, _⟩
  have level := Analysis.register_level p.items ⟨.empty limit, #[]⟩
  have passes : p.analyze (.empty limit) =
    ((Visit.each Analysis.registerItem p.items ⟨.empty limit, #[]⟩).andThen fun items a =>
      (Visit.each Analysis.checkItem items a).andThen Analysis.checkClosed).map Program.mk := rfl
  rcases registered : Visit.each Analysis.registerItem p.items ⟨.empty limit, #[]⟩
    with ⟨items, a, stopped⟩
  rw [registered] at ran nodes level passes
  obtain rfl : stopped = none := ran
  obtain rfl : items = numbered [] p.items := nodes
  have travelled := Analysis.checkItems_reached p.items fresh [] a
  rw [show a.ledger.level = ⟨0, limit⟩ from level] at travelled
  rw [passes, Landmark.fault?, skeleton, ← travelled]
  show (((Visit.each Analysis.checkItem (numbered [] p.items) a).andThen Analysis.checkClosed).map
    Program.mk).stopped = _
  rcases Visit.each Analysis.checkItem (numbered [] p.items) a with ⟨checked, behind, _ | fault⟩
  · exact Analysis.checkClosed_stopped checked behind
  · rfl

/-- Programs with one skeleton are analysed to their ends alike: both to the end or both to the same
fault, whatever mistakes are in them. -/
theorem analyze_stops_alike {p q : Program} (fresh : p.Fresh) (other : q.Fresh)
    (same : p.skeleton = q.skeleton)
    (limit : Nat) : (p.analyze (.empty limit)).stopped = (q.analyze (.empty limit)).stopped := by
  rw [analyze_fault fresh, analyze_fault other, same]

def sound : Program :=
  ⟨[.function ⟨"f", .int, [], some [.beginBlock 2, .endBlock 3], 1, none⟩,
    .stmt (.beginBlock 4), .function ⟨"f", .int, [], some [.endBlock 6], 5, none⟩]⟩

def spoiled : Program :=
  ⟨[.stmt (.declare 1 ⟨"x", .boolean, some (.int ⟨1, none⟩ 1), none⟩),
    .function ⟨"f", .double, [⟨"a", .int, none⟩, ⟨"a", .int, none⟩],
      some [.beginBlock 2, .expr 2 (.name ⟨2, none⟩ "y" none), .endBlock 3], 2, none⟩,
    .stmt (.beginBlock 4), .stmt (.enterIf 5 (.double ⟨5, none⟩ ⟨0⟩)),
      .stmt (.declare 5 ⟨"x", .int, none, none⟩),
    .function ⟨"f", .int, [], some
      [.expr 6 (.call ⟨6, none⟩ (.name ⟨6, none⟩ "g" none) []), .endBlock 6], 6, none⟩,
    .stmt (.declare 7 ⟨"x", .int, none, none⟩)]⟩

theorem spoiled_stops_alike :
    sound.Fresh ∧ spoiled.Fresh ∧ sound.skeleton = spoiled.skeleton ∧
      (sound.analyze (.empty 2)).stopped = (spoiled.analyze (.empty 2)).stopped ∧
      (spoiled.analyze (.empty 2)).stopped = some (.unclosedBlocks 1) ∧
      (spoiled.analyze (.empty 2)).state.diagnostics.size = 6 :=
  have fresh : sound.Fresh := by decide
  have other : spoiled.Fresh := by decide
  ⟨fresh, other, rfl, analyze_stops_alike fresh other rfl 2, rfl, rfl⟩

end Program
end StackCompiler
