import Firestorm.Native.Generate
import Firestorm.Native.Riscv.Lower
import Firestorm.Native.X86.Lower

/-!
# Machines that native code is generated for

## Main definitions

* `Architecture`, `Architecture.convention`, `Architecture.lower`, `Program.toAssembly`.
-/

namespace Firestorm

open Native (Convention Primitive)

/-- The machines that native code is generated for. -/
inductive Architecture
  | x86
  | riscv
deriving Repr, DecidableEq, Inhabited

namespace Architecture

/-- All machines. -/
def all : List Architecture := [x86, riscv]

/-- The name of a machine. -/
def name : Architecture → String
  | x86 => "x86_64"
  | riscv => "riscv64"

/-- The machine with the given name. -/
def ofName? (text : String) : Option Architecture :=
  all.find? fun a => a.name == text

/-- The extension of files with assembly text. -/
def extension : Architecture → String
  | x86 => "asm"
  | riscv => "S"

/-- The registers and the frames of a machine. -/
def convention : Architecture → Convention
  | x86 => X86.convention
  | riscv => Riscv.convention

/-- The lines of a primitive. -/
def lower : (a : Architecture) → Primitive a.convention.registers → List String
  | x86, p => (X86.lower p).map X86.Line.render
  | riscv, p => (Riscv.lower p).map Riscv.Line.render

/-- The text of a primitive. -/
def render (a : Architecture) (p : Primitive a.convention.registers) : String :=
  String.join ((a.lower p).map (· ++ "\n"))

end Architecture

/-- The assembly text of a program. -/
def Program.toAssembly (p : Program) (a : Architecture) : Except CompileError String := do
  let code ← p.toNative a.convention
  return String.join (code.map a.render)

end Firestorm
