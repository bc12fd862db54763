import StackCompiler.Code.Chunk
import StackCompiler.Code.Constant

/-!
The executable: top-level code, function bodies, constants and the tables of variables and
functions.

The listing shows the top-level code and then every function that has a body, each under a heading
with its size in bytes.
-/
namespace StackCompiler

structure StaticVariable where
  name : String
  ty : Ty
  slot : UInt16
deriving DecidableEq, Repr

structure CompiledFunction where
  name : String
  returns : Ty
  params : List Ty
  slot : UInt16
  code : Option Chunk
deriving DecidableEq, Repr

structure Executable where
  code : Chunk
  constants : ConstantPool
  statics : List StaticVariable
  functions : List CompiledFunction
deriving Repr

structure Section where
  title : String
  size : Nat
  instructions : List Placed

def Section.text (s : Section) : String :=
  s.instructions.foldl (fun text placed => text ++ placed.text ++ "\n")
    s!"-- {s.title} len({s.size}) --\n"

namespace Executable

/-- The last variable of a name; earlier ones belong to scopes that it shadows or follows. -/
def variableNamed? (exe : Executable) (name : String) : Option StaticVariable :=
  exe.statics.reverse.find? (·.name == name)

def functionNamed? (exe : Executable) (name : String) : Option CompiledFunction :=
  exe.functions.find? (·.name == name)

def bodies (exe : Executable) : List (String × Chunk) :=
  ("code", exe.code) :: exe.functions.filterMap fun f => f.code.map (s!"function {f.name}", ·)

def listing (exe : Executable) : Except DecodeError (List Section) :=
  exe.bodies.mapM fun (title, chunk) => do
    return ⟨title, chunk.size, ← chunk.instructions⟩

def instructionCount (listing : List Section) : Nat :=
  listing.foldl (fun count s => count + s.instructions.length) 0

def listingText (listing : List Section) : String := String.join (listing.map Section.text)

end Executable

end StackCompiler
