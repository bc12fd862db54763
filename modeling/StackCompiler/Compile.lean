import StackCompiler.Lowering.Program
import StackCompiler.Typing.Program

/-!
Compiling a program: typing, and code generation only if typing found nothing wrong.
-/
namespace StackCompiler

inductive Failure
  | diagnostics (found : Array Diagnostic)
  | fault (cause : Fault)
  | decode (error : DecodeError)

namespace Failure

def text : Failure → String
  | diagnostics found => "\n".intercalate (found.toList.map Diagnostic.text)
  | fault cause => "internal compiler error: " ++ cause.text
  | decode error => "bytecode decode error: " ++ error.text

def isDiagnostics : Failure → Bool
  | diagnostics _ => true
  | fault _ | decode _ => false

def isInternal : Failure → Bool
  | fault _ => true
  | diagnostics _ | decode _ => false

end Failure

structure Settings where
  lowering : LoweringOptions
  blockLimit : Nat
deriving DecidableEq, Repr

def Settings.default : Settings := ⟨.default, Ledger.defaultLimit⟩

/-- The executable of a program, or why there is none, beside the tree that typing left. -/
def Program.compile (p : Program) (settings : Settings) : Program × Except Failure Executable :=
  let visit := p.analyze (.empty settings.blockLimit)
  let result := match visit.stopped with
    | some fault => .error (.fault fault)
    | none =>
        if visit.state.diagnostics.isEmpty then
          (visit.node.lower settings.lowering).mapError Failure.fault
        else .error (.diagnostics visit.state.diagnostics)
  (visit.node, result)

end StackCompiler
