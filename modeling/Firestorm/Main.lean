import Firestorm.CommandLine.Run

/-!
# The command line

Reads arguments, runs on the files of the system, and prints what the run leaves behind. Assemblers
and linkers are not started from here, so that objects and executables end with an error behind
their assembly text.

## Main definitions

* `CommandLine.systemFiles`, `main`.
-/

namespace Firestorm.CommandLine

/-- The error that an operation of the system reports. -/
def fileError : IO.Error → FileError
  | .noFileOrDirectory .. => .notFound
  | .inappropriateType _ 20 _ => .notDirectory
  | .inappropriateType _ 21 _ => .isDirectory
  | e => .other e.toString

/-- The result of an operation of the system. -/
def attempt {α : Type} (x : IO α) : IO (Except FileError α) := do
  try
    return .ok (← x)
  catch e =>
    return .error (fileError e)

/-- The operations on the files of the system. -/
def systemFiles : Surroundings IO where
  read path := attempt do return (← IO.FS.readBinFile path).toList
  write path content := attempt (IO.FS.writeBinFile path ⟨content.toArray⟩)
  runTool _ _ := return .error (.other "tools are not started from the command line")

/-- How the program is called. -/
def usage : String :=
  "Usage: firestorm [OPTIONS] <INPUT>\n\n" ++
  "  -o, --output <FILE>     output file, its extension selects the output mode\n" ++
  "  -t, --target <TARGET>   x86_64-linux-nasm, riscv64-linux-gnu or bytecode\n" ++
  "  -i, --include <DIR>     additional include path\n" ++
  "  -s, --strip             strip executables\n" ++
  "  -v                      increase log verbosity\n" ++
  "      --dump              write token and syntax tree dumps next to the output\n" ++
  "  -r, --interpret         interpret the program instead of compiling it\n" ++
  "  -a, --arg <ARG>         program argument for the interpreter\n" ++
  "  -l, --leaks             report heap leaks after interpretation\n" ++
  "      --heap <CELLS>      interpreter heap capacity\n"

/-- The name under which messages show a switch. -/
def switchName (s : Switch) : String :=
  match s.long?, s.short? with
  | some name, _ => "--" ++ name
  | none, some letter => String.ofList ['-', letter]
  | none, none => ""

/-- The wording of a usage error. -/
def UsageError.message : UsageError → String
  | unknownOption text => s!"unknown option {text}"
  | missingValue parameter => s!"--{parameter.long} needs a value"
  | unexpectedValue switch => switchName switch ++ " takes no value"
  | repeatedSwitch switch => switchName switch ++ " is given more than once"
  | repeatedParameter parameter => s!"--{parameter.long} is given more than once"
  | missingInput => "no input is given"
  | unexpectedInput text => s!"unexpected argument {text}"
  | missingOutput => "no output is given"
  | leaksWithoutInterpret => "--leaks needs --interpret"

end Firestorm.CommandLine

open Firestorm CommandLine in
/-- The command line. -/
def main (arguments : List String) : IO UInt32 := do
  match Request.ofArguments arguments with
  | .error e =>
    IO.eprint s!"error: {e.message}\n\n{usage}"
    return 2
  | .ok .help =>
    IO.print usage
    return 0
  | .ok .version =>
    IO.println "firestorm 1.0.0"
    return 0
  | .ok (.run o) =>
    let outcome ← run systemFiles Include.ampleDepth o
    let stdout ← IO.getStdout
    stdout.write ⟨outcome.output.toArray⟩
    stdout.flush
    IO.eprint outcome.messages
    return outcome.code.toUInt32
