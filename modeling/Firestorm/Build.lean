import Firestorm.Bytecode.Encode
import Firestorm.Bytecode.Linker
import Firestorm.Surroundings
import Firestorm.Target
import Firestorm.Toolchain

/-!
# Building outputs

The text of a program for a target is written in one of the target's modes. An object or an
executable leaves the assembly text beside it. An image that cannot be finished is written as far as
it goes.

## Main definitions

* `BuildError`, `Target.build`.
-/

namespace Firestorm

/-- Why an output cannot be built. -/
inductive BuildError
  | unsupportedMode (target : Target) (mode : OutputMode)
  | file (cause : FileError)
  | encode (error : EncodeError)
  | link (error : LinkError)
  | toolUnavailable (tool : String) (cause : FileError)
  | toolFailed (tool : String) (status : Nat)
deriving Repr, DecidableEq, Inhabited

namespace BuildError

/-- The wording of an error. A failed tool is shown with the word that a waiting process receives,
which holds the exit status in its second byte. -/
def message : BuildError → String
  | unsupportedMode target mode =>
    s!"Mode `{mode.name}` is not supported by target `{target.name}`"
  | file _ => "I/O error"
  | encode error => error.message
  | link error => error.message
  | toolUnavailable tool _ => s!"I/O error while running `{tool}`"
  | toolFailed tool status =>
    s!"`{tool}` exited with status code ExitStatus(unix_wait_status({256 * status}))"

/-- The wording of what lies behind an error. -/
def causes : BuildError → List String
  | file cause | toolUnavailable _ cause => [cause.message]
  | _ => []

end BuildError

section

variable {m : Type → Type} [Monad m]

/-- A computation that may fail to build. -/
abbrev Build (m : Type → Type) (α : Type) := ExceptT BuildError m α

namespace Build

/-- Writes a file. -/
def write (s : Surroundings m) (path : String) (content : List UInt8) : Build m Unit :=
  ExceptT.mk do return (← s.write path content).mapError .file

/-- Runs a command, which must succeed. -/
def runCommand (s : Surroundings m) (c : Command) : Build m Unit := do
  match ← s.runTool c.tool c.arguments with
  | .error cause => throw (.toolUnavailable c.tool cause)
  | .ok 0 => return
  | .ok status => throw (.toolFailed c.tool status)

/-- Writes assembly text beside an output, and yields its path. -/
def writeAssembly (s : Surroundings m) (a : Architecture) (output text : String) :
    Build m String := do
  let path := Path.sibling output a.extension
  write s path (encodeText text)
  return path

/-- Writes native code in a mode. -/
def native (s : Surroundings m) (a : Architecture) (mode : OutputMode) (output text : String)
    (strip : Bool) : Build m Unit := do
  match mode with
  | .assembly => write s output (encodeText text)
  | .object =>
    let assembly ← writeAssembly s a output text
    runCommand s (a.assembleCommand assembly output)
  | _ =>
    let assembly ← writeAssembly s a output text
    let object := Path.sibling output "o"
    runCommand s (a.assembleCommand assembly object)
    runCommand s (a.linkCommand object output strip)

/-- Writes bytecode in a mode. -/
def bytecode (s : Surroundings m) (mode : OutputMode) (output text : String) : Build m Unit := do
  match mode with
  | .bytecode => write s output (encodeText text)
  | .listing =>
    match Bytecode.encode text with
    | .error e => throw (.encode e)
    | .ok items => write s output (encodeText (Bytecode.Item.renderAll items))
  | _ =>
    match Bytecode.encode text with
    | .error e => throw (.encode e)
    | .ok items =>
      let (result, written) := (Bytecode.linkInto items).run.run {}
      write s output written.buffer
      match result with
      | .error e => throw (.link e)
      | .ok () => return

end Build

/-- Writes the text of a program for a target in a mode. -/
def Target.build (s : Surroundings m) (t : Target) (mode : OutputMode) (output text : String)
    (strip : Bool) : Build m Unit := do
  if mode ∈ t.modes then
    match t with
    | .native a => Build.native s a mode output text strip
    | .bytecode => Build.bytecode s mode output text
  else throw (.unsupportedMode t mode)

end

end Firestorm
