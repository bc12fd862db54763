import StackCompiler.Lowering.Expr
import StackCompiler.Walk.Reading

/-!
Code for statements, bodies and whole programs.

The top-level statements make one body and every function with statements makes another. Constants,
the ids of labels and the table of variables run through all of them, top level first; a conditional
must be closed in the body that opened it.
-/
namespace StackCompiler

namespace Lowering

def enterStmt (s : Stmt) : Lower Unit := do
  atLine s.line
  match s with
  | .declare .. | .enterIf .. => openValue
  | .expr .. | .beginBlock _ | .endBlock _ | .leaveIf _ => pure ()

/-- An assignment that is a whole statement has already consumed its value. -/
def leaveValue : Lower Unit := do
  match (← get).mode with
  | .load => emit .pop
  | .store => modify fun s => { s with mode := .load, assigns := 0 }

def leaveDeclaration (line : Nat) (decl : Declaration) : Lower Unit := do
  closeValue
  match decl.id with
  | none => throw (.unresolvedBinding decl.name line)
  | some id =>
      if decl.init.isSome then store decl.ty id
      recordVariable decl.name decl.ty id

def leaveStmt (s : Stmt) : Lower Unit := do
  atLine s.line
  match s with
  | .expr .. => leaveValue
  | .declare line decl => leaveDeclaration line decl
  | .beginBlock _ => emit .pushStackPointer
  | .endBlock _ => emit .popStackPointer
  | .enterIf .. =>
      closeValue
      discard (emitting Emitter.jumpAhead)
  | .leaveIf _ => discard (emitting Emitter.land)

def generator : Visitor Lowering Fault where
  enterExpr := enterExpr
  betweenExpr := betweenExpr
  leaveExpr := leaveExpr
  enterStmt := enterStmt
  leaveStmt := leaveStmt

def storeParam (line : Nat) (param : Param) : Lower Unit := do
  match param.id with
  | none => throw (.unresolvedBinding param.name line)
  | some id =>
      store param.ty id
      recordVariable param.name param.ty id

/-- Arguments were pushed from left to right, so the last one comes off the stack first. -/
def prologue (f : Function) : Lower Unit := do
  atLine f.line
  f.params.reverse.forM (storeParam f.line)

def body (options : LoweringOptions) (shared : Shared) (steps : Lower Unit) :
    Except Fault (Chunk × Shared) :=
  match steps (start options shared) with
  | .error fault _ => .error fault
  | .ok _ final =>
      let pending := final.emitter.labels.depth
      if pending = 0 then .ok (final.emitter.buffer.finish, final.shared)
      else .error (.unclosedConditionals pending)

def function (options : LoweringOptions) (shared : Shared) (f : Function) :
    Except Fault (CompiledFunction × Shared) := do
  match f.id with
  | none => throw (.unresolvedBinding f.name f.line)
  | some id =>
      match f.body with
      | none =>
          return (⟨f.name, f.returns, f.paramTypes, ← slotOf id.index "function", none⟩, shared)
      | some stmts =>
          let (code, shared) ← body options shared do
            prologue f
            generator.walkStmts stmts
          return (⟨f.name, f.returns, f.paramTypes, ← slotOf id.index "function", some code⟩,
            shared)

def functions (options : LoweringOptions) (fs : List Function) (shared : Shared) :
    Except Fault (Array CompiledFunction × Shared) :=
  fs.foldlM (fun (compiled, shared) f => do
    let (next, shared) ← function options shared f
    return (compiled.push next, shared)) (#[], shared)

end Lowering

def Program.lower (p : Program) (options : LoweringOptions) : Except Fault Executable := do
  let (code, shared) ← Lowering.body options ⟨.empty, .empty options.labelLimit, #[]⟩
    (Lowering.generator.walkStmts p.statements)
  let (functions, shared) ← Lowering.functions options p.functions shared
  let statics := shared.statics.toList.mergeSort fun a b => a.slot ≤ b.slot
  return ⟨code, shared.constants, statics, functions.toList⟩

end StackCompiler
