import Firestorm.Files

/-!
# The surroundings of a program

Compiling reads and writes files and runs an assembler and a linker. These operations are a
parameter: they may act on the real surroundings, or on a model of a working directory.

## Main definitions

* `Surroundings`, `Surroundings.readText`, `Surroundings.writeText`, `Workspace`,
  `Workspace.surroundings`.
-/

namespace Firestorm

/-- The operations on the surroundings. A tool that ran yields its exit status. -/
structure Surroundings (m : Type → Type) where
  read : (path : String) → m (Except FileError (List UInt8))
  write : (path : String) → (content : List UInt8) → m (Except FileError Unit)
  runTool : (tool : String) → (arguments : List String) → m (Except FileError Nat)

namespace Surroundings

variable {m : Type → Type} [Monad m]

/-- The text of a file. -/
def readText (s : Surroundings m) (path : String) : m (Except FileError String) := do
  return (← s.read path).bind decodeText

/-- Replaces a file by a text. -/
def writeText (s : Surroundings m) (path text : String) : m (Except FileError Unit) :=
  s.write path (encodeText text)

end Surroundings

/-- A working directory, the tools that can be run there with the status each of them exits with,
and the commands that were run. A tool writes nothing. -/
structure Workspace where
  files : Files := {}
  tools : List (String × Nat) := []
  commands : List (List String) := []
deriving Repr, DecidableEq, Inhabited

namespace Workspace

/-- Writes a file of the workspace. -/
def writeFile (w : Workspace) (path : String) (content : List UInt8) :
    Except FileError Unit × Workspace :=
  match w.files.write path content with
  | .ok files => (.ok (), { w with files })
  | .error e => (.error e, w)

/-- Runs a tool of the workspace. -/
def run (w : Workspace) (tool : String) (arguments : List String) :
    Except FileError Nat × Workspace :=
  match w.tools.lookup tool with
  | some status => (.ok status, { w with commands := w.commands ++ [tool :: arguments] })
  | none => (.error .notFound, w)

/-- The operations on a workspace. -/
def surroundings : Surroundings (StateM Workspace) where
  read path := fun w => (w.files.read path, w)
  write path content := fun w => w.writeFile path content
  runTool tool arguments := fun w => w.run tool arguments

end Workspace

end Firestorm
