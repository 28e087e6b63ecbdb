import Firestorm.Bytecode.Emit
import Firestorm.Native.Architecture
import Firestorm.Path
import Firestorm.Text.Caseless

/-!
# Targets and modes

A target is what a program is compiled for; a mode is the form in which the result is written, and
the extension of the output file tells which.

## Main definitions

* `Target`, `Target.ofName?`, `OutputMode`, `OutputMode.ofPath?`, `Target.modes`, `Target.generate`.
-/

namespace Firestorm

/-- The forms of output: assembly text, object, executable, bytecode text, its listing of items, and
its linked image. -/
inductive OutputMode
  | assembly
  | object
  | executable
  | bytecode
  | listing
  | image
deriving Repr, DecidableEq, Inhabited

namespace OutputMode

/-- All modes. -/
def all : List OutputMode := [assembly, object, executable, bytecode, listing, image]

/-- The name of a mode, which is also the extension of its files. -/
def name : OutputMode → String
  | assembly => "asm"
  | object => "o"
  | executable => "elf"
  | bytecode => "flb"
  | listing => "flenc"
  | image => "flbb"

/-- The mode that the extension of a path asks for. -/
def ofPath? (path : String) : Option OutputMode := do
  let ext ← Path.extension? path
  all.find? fun mode => Text.caseless mode.name ext

end OutputMode

/-- What a program is compiled for. -/
inductive Target
  | native (architecture : Architecture)
  | bytecode
deriving Repr, DecidableEq, Inhabited

namespace Target

/-- All targets. -/
def all : List Target := [native .x86, native .riscv, bytecode]

/-- The name of a target. -/
def name : Target → String
  | native .x86 => "x86_64-linux-nasm"
  | native .riscv => "riscv64-linux-gnu"
  | bytecode => "bytecode"

/-- The target with the given name. -/
def ofName? (text : String) : Option Target :=
  all.find? fun t => Text.caseless t.name text

/-- The modes of a target. -/
def modes : Target → List OutputMode
  | native _ => [.assembly, .object, .executable]
  | bytecode => [.bytecode, .listing, .image]

/-- The text of a program for a target. -/
def generate (t : Target) (p : Program) : Except CompileError String :=
  match t with
  | native a => p.toAssembly a
  | bytecode => p.toBytecode.map Section.renderAll

end Target

end Firestorm
