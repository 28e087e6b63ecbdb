import Firestorm.Native.Architecture

/-!
# Assemblers and linkers

## Main definitions

* `Command`, `Architecture.assembleCommand`, `Architecture.linkCommand`.
-/

namespace Firestorm

/-- A tool with its arguments. -/
structure Command where
  tool : String
  arguments : List String
deriving Repr, DecidableEq, Inhabited

namespace Architecture

/-- The assembler of a machine. -/
def assembler : Architecture → String
  | x86 => "nasm"
  | riscv => "riscv64-linux-gnu-as"

/-- The arguments that an assembler needs besides its files. -/
def assemblerArguments : Architecture → List String
  | x86 => ["-felf64"]
  | riscv => []

/-- The linker of a machine. -/
def linker : Architecture → String
  | x86 => "gcc"
  | riscv => "riscv64-linux-gnu-gcc"

/-- The command that turns assembly text into an object. -/
def assembleCommand (a : Architecture) (input output : String) : Command :=
  ⟨a.assembler, [input] ++ a.assemblerArguments ++ ["-o", output, "-g"]⟩

/-- The command that turns an object into an executable, without symbols if it is stripped. -/
def linkCommand (a : Architecture) (object output : String) (strip : Bool) : Command :=
  ⟨a.linker, [object, "-o", output, "--static", "-fno-pie", "-g"] ++ if strip then ["-s"] else []⟩

end Architecture

end Firestorm
