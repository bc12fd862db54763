import StackCompiler.Fault
import StackCompiler.Language.Expr

/-!
The ledger of scopes.

Two histories, of variables and of functions, only ever grow, and an id is a place in one of them.
Blocks are not kept as nested scopes: each BEGIN and END leaves a checkpoint with the lengths of
both histories at that moment. From a border on, a name means the latest entry of that name that was
not recorded inside a block which had been closed again by then.
-/
namespace StackCompiler

structure VariableEntry where
  name : String
  ty : Ty
  line : Nat
deriving DecidableEq, Repr

structure FunctionEntry where
  name : String
  returns : Ty
  params : List Ty
  line : Nat
deriving DecidableEq, Repr

inductive Boundary
  | begins
  | ends
deriving DecidableEq, Repr

/-- A block boundary and the lengths of the histories when it was recorded. -/
structure Checkpoint where
  boundary : Boundary
  vars : Nat
  functions : Nat
deriving DecidableEq, Repr

structure Border where
  vars : Nat
  functions : Nat
  checkpoints : Nat
deriving DecidableEq, Repr

/-- The latest checkpoint comes first. -/
structure Ledger where
  vars : Array VariableEntry
  functions : Array FunctionEntry
  checkpoints : List Checkpoint
  depth : Nat
  limit : Nat
deriving DecidableEq, Repr

namespace Ledger

def defaultLimit : Nat := 256

def empty (limit : Nat) : Ledger := ⟨#[], #[], [], 0, limit⟩

-- Recording.

def addVariable (ledger : Ledger) (entry : VariableEntry) : VarId × Ledger :=
  let ⟨vars, functions, checkpoints, depth, limit⟩ := ledger
  (⟨vars.size⟩, ⟨vars.push entry, functions, checkpoints, depth, limit⟩)

def addFunction (ledger : Ledger) (entry : FunctionEntry) : FunId × Ledger :=
  let ⟨vars, functions, checkpoints, depth, limit⟩ := ledger
  (⟨functions.size⟩, ⟨vars, functions.push entry, checkpoints, depth, limit⟩)

def checkpoint (ledger : Ledger) (boundary : Boundary) : Checkpoint :=
  ⟨boundary, ledger.vars.size, ledger.functions.size⟩

def openBlock (ledger : Ledger) : Except Fault Ledger :=
  if ledger.limit ≤ ledger.depth then .error (.blockOverflow ledger.limit)
  else
    let mark := ledger.checkpoint .begins
    .ok { ledger with checkpoints := mark :: ledger.checkpoints, depth := ledger.depth + 1 }

def closeBlock (ledger : Ledger) : Except Fault Ledger :=
  if ledger.depth = 0 then .error .blockUnderflow
  else
    let mark := ledger.checkpoint .ends
    .ok { ledger with checkpoints := mark :: ledger.checkpoints, depth := ledger.depth - 1 }

-- Looking back.

def border (ledger : Ledger) : Border :=
  ⟨ledger.vars.size, ledger.functions.size, ledger.checkpoints.length⟩

/-- The checkpoints that had been recorded at a border. -/
def recorded (ledger : Ledger) (border : Border) : List Checkpoint :=
  ledger.checkpoints.drop (ledger.checkpoints.length - border.checkpoints)

structure Span where
  start : Nat
  stop : Nat
deriving DecidableEq, Repr

/-- The outermost closed blocks, the latest first. Read backwards, `closed` counts the ENDs whose
BEGIN is still to come and `stop` is the length of the history at the outermost of them. A BEGIN
without an END is a block still open and bounds nothing. -/
def closedBlocks (length : Checkpoint → Nat) :
    (closed stop : Nat) → List Checkpoint → List Span
  | _, _, [] => []
  | closed, stop, mark :: older =>
      match mark.boundary, closed with
      | .ends, 0 => closedBlocks length 1 (length mark) older
      | .ends, closed + 1 => closedBlocks length (closed + 2) stop older
      | .begins, 0 => closedBlocks length 0 stop older
      | .begins, 1 => ⟨length mark, stop⟩ :: closedBlocks length 0 stop older
      | .begins, closed + 2 => closedBlocks length (closed + 1) stop older

/-- The length of the history where the innermost open block began. -/
def blockStart (length : Checkpoint → Nat) : (closed : Nat) → List Checkpoint → Nat
  | _, [] => 0
  | closed, mark :: older =>
      match mark.boundary, closed with
      | .ends, closed => blockStart length (closed + 1) older
      | .begins, 0 => length mark
      | .begins, closed + 1 => blockStart length closed older

/-- The greatest index below `stop`, and not below `start`, that satisfies `accepts`. -/
def latest (accepts : Nat → Bool) (start : Nat) : (stop : Nat) → Option Nat
  | 0 => none
  | index + 1 =>
      if index < start then none
      else if accepts index then some index
      else latest accepts start index

/-- The same among the places outside the closed blocks: what stands above the latest block is
tried, and then the scan goes on below it. -/
def scan (accepts : Nat → Bool) (start : Nat) : (stop : Nat) → List Span → Option Nat
  | stop, [] => latest accepts start stop
  | stop, block :: older =>
      match latest accepts (max start block.stop) stop with
      | some index => some index
      | none => scan accepts start (min stop block.start) older

def lookup {α : Type} (history : Array α) (nameOf : α → String) (length : Checkpoint → Nat)
    (marks : List Checkpoint) (name : String) (start stop : Nat) : Option Nat :=
  scan (fun index => history[index]?.any (nameOf · == name)) start (min stop history.size)
    (closedBlocks length 0 0 marks)

def findVariableFrom (ledger : Ledger) (name : String) (border : Border) : Option VarId :=
  (lookup ledger.vars VariableEntry.name Checkpoint.vars (ledger.recorded border) name 0
    border.vars).map VarId.mk

def findFunctionFrom (ledger : Ledger) (name : String) (border : Border) : Option FunId :=
  (lookup ledger.functions FunctionEntry.name Checkpoint.functions (ledger.recorded border) name 0
    border.functions).map FunId.mk

def findVariable (ledger : Ledger) (name : String) : Option VarId :=
  (lookup ledger.vars VariableEntry.name Checkpoint.vars ledger.checkpoints name 0
    ledger.vars.size).map VarId.mk

def findFunction (ledger : Ledger) (name : String) : Option FunId :=
  (lookup ledger.functions FunctionEntry.name Checkpoint.functions ledger.checkpoints name 0
    ledger.functions.size).map FunId.mk

/-- Searches the innermost open block only; a name of an enclosing one may be shadowed. -/
def findVariableInBlock (ledger : Ledger) (name : String) : Option VarId :=
  (lookup ledger.vars VariableEntry.name Checkpoint.vars ledger.checkpoints name
    (blockStart Checkpoint.vars 0 ledger.checkpoints) ledger.vars.size).map VarId.mk

def findFunctionInBlock (ledger : Ledger) (name : String) : Option FunId :=
  (lookup ledger.functions FunctionEntry.name Checkpoint.functions ledger.checkpoints name
    (blockStart Checkpoint.functions 0 ledger.checkpoints) ledger.functions.size).map FunId.mk

def variableAt? (ledger : Ledger) (id : VarId) : Option VariableEntry := ledger.vars[id.index]?

def functionAt? (ledger : Ledger) (id : FunId) : Option FunctionEntry := ledger.functions[id.index]?

def resolve (ledger : Ledger) (name : String) : Option (Binding × Option Ty) :=
  match ledger.findVariable name with
  | some id => some (.variable id, (ledger.variableAt? id).map VariableEntry.ty)
  | none =>
      match ledger.findFunction name with
      | some id => some (.function id, (ledger.functionAt? id).map FunctionEntry.returns)
      | none => none

end Ledger

end StackCompiler
