import StackCompiler.Walk.Reading
import StackCompiler.Walk.Editing

/-!
The trace of a walk: every call of a hook, numbered from zero, with the node it was given.

A recorder may be told to fail at one event and, in an editing walk, to edit the node of certain
events. The failing event is recorded, but no edit is made there.
-/
namespace StackCompiler

inductive Hook
  | enter
  | between
  | leave
deriving DecidableEq, Repr

def Hook.name : Hook → String
  | enter => "enter"
  | between => "notify"
  | leave => "leave"

def Stmt.eventText (hook : Hook) (s : Stmt) : String := s!"{hook.name}_stmt {s.kind} @{s.line}"

def Expr.eventText (hook : Hook) (e : Expr) : String :=
  let named := match e with
    | .name _ identifier _ => " " ++ identifier
    | _ => ""
  let literal := if e.isLiteral then " literal" else ""
  s!"{hook.name} {e.noun}{named}{literal} @{e.line}"

inductive Change
  | wrap (kind : Cast)
  | replace (e : Expr)

namespace Change

def apply (e : Expr) : Change → Expr
  | wrap kind => e.convert kind
  | replace e => e

/-- By how much a change can deepen the tree. -/
def height : Change → Nat
  | wrap _ => 1
  | replace e => e.height

end Change

structure Edit where
  event : Nat
  change : Change

structure Recorder where
  failAt : Option Nat
  edits : List Edit
  events : Array String

def Recorder.record (text : String) (recorder : Recorder) : Nat × Option Nat × Recorder :=
  let ⟨failAt, edits, events⟩ := recorder
  let event := events.size
  (event, if failAt = some event then some event else none, ⟨failAt, edits, events.push text⟩)

def Recorder.editsAt (recorder : Recorder) (event : Nat) : List Change :=
  (recorder.edits.filter (·.event = event)).map Edit.change

namespace Trace

def read (text : String) : EStateM Nat Recorder Unit := fun recorder =>
  match recorder.record text with
  | (_, none, recorder) => .ok () recorder
  | (_, some event, recorder) => .error event recorder

def reader : Visitor Recorder Nat where
  enterExpr e := read (e.eventText .enter)
  betweenExpr e := read (e.eventText .between)
  leaveExpr e := read (e.eventText .leave)
  enterStmt s := read (s.eventText .enter)
  leaveStmt s := read (s.eventText .leave)

def editExpr (hook : Hook) (e : Expr) (recorder : Recorder) : Visit Recorder Nat Expr :=
  match recorder.record (e.eventText hook) with
  | (event, none, recorder) => .done ((recorder.editsAt event).foldl Change.apply e) recorder
  | (_, some event, recorder) => .stop e recorder event

def keepStmt (hook : Hook) (s : Stmt) (recorder : Recorder) : Visit Recorder Nat Stmt :=
  match recorder.record (s.eventText hook) with
  | (_, none, recorder) => .done s recorder
  | (_, some event, recorder) => .stop s recorder event

def scripted : Editor Recorder Nat where
  enterExpr := editExpr .enter
  betweenExpr := editExpr .between
  leaveExpr := editExpr .leave
  enterStmt := keepStmt .enter
  leaveStmt := keepStmt .leave

/-- A depth no walk can exceed: each edit is made once and deepens the tree by its height at
most. -/
def depthFor (edits : List Edit) (stmts : List Stmt) : Nat :=
  let tallest := stmts.foldl (fun height s => max height (s.root?.elim 0 Expr.height)) 0
  edits.foldl (fun depth edit => depth + edit.change.height) (tallest + 1)

def ofReading (failAt : Option Nat) (stmts : List Stmt) : List String × Option Nat :=
  match reader.walkStmts stmts ⟨failAt, [], #[]⟩ with
  | .ok _ recorder => (recorder.events.toList, none)
  | .error event recorder => (recorder.events.toList, some event)

def ofEditing (failAt : Option Nat) (edits : List Edit) (stmts : List Stmt) :
    List String × Option Nat × List Stmt :=
  let visit := scripted.walkStmts (depthFor edits stmts) stmts ⟨failAt, edits, #[]⟩
  let failedAt := match visit.stopped with
    | some (.failed event) => some event
    | some .exhausted | none => none
  (visit.state.events.toList, failedAt, visit.node)

def counter : Visitor Nat Empty where
  enterExpr _ := modify (· + 1)
  betweenExpr _ := pure ()
  leaveExpr _ := modify (· + 1)
  enterStmt _ := modify (· + 1)
  leaveStmt _ := modify (· + 1)

def count (stmts : List Stmt) : Nat :=
  match counter.walkStmts stmts 0 with
  | .ok _ calls => calls

end Trace

end StackCompiler
