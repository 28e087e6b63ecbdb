import Firestorm.Build
import Firestorm.CommandLine.Options
import Firestorm.Diagnostic
import Firestorm.Include
import Firestorm.Interpreter
import Firestorm.Program.Outline
import Firestorm.Program.Parser
import Firestorm.Text.Decimal
import Firestorm.Token.Lexer

/-!
# Runs of the command line

The input is read, included files are appended, and the text is parsed. Then the program is
interpreted, or compiled for a target.

## Main definitions

* `CommandLine.Failure`, `CommandLine.Outcome`, `CommandLine.interpret`, `CommandLine.compile`,
  `CommandLine.run`.
-/

namespace Firestorm.CommandLine

/-- Why a run fails: faults in the source, or an error with its causes. -/
inductive Failure
  | report (report : Report)
  | error (context : String) (causes : List String)

namespace Failure

/-- A cause with four spaces in front of each of its lines. -/
def indented (cause : String) : String :=
  "\n".intercalate ((Text.pieces cause.toList).map fun l => Text.spaces 4 ++ String.ofList l)

/-- A cause with its number in front of the first line, and the other lines below its start. -/
def numbered (cause : String) (index : Nat) : String :=
  let number := toString index
  let first := Text.spaces (5 - number.length) ++ number ++ ": "
  first ++ ("\n" ++ Text.spaces 7).intercalate ((Text.pieces cause.toList).map String.ofList)

/-- The text of a failure. -/
def render : Failure → String
  | report r => r.render
  | error context [] => s!"error: {context}\n"
  | error context [cause] => s!"error: {context}\n\nCaused by:\n{indented cause}\n"
  | error context causes =>
    let lines := causes.zipIdx.map fun (cause, index) => numbered cause index
    s!"error: {context}\n\nCaused by:\n" ++ "\n".intercalate lines ++ "\n"

end Failure

/-- What a run leaves behind: the exit code, what the program printed, and messages. -/
structure Outcome where
  code : Nat
  output : List UInt8 := []
  messages : String := ""
deriving Repr, DecidableEq, Inhabited

/-- A run that fails behind the given output. -/
def Outcome.ofFailure (f : Failure) (output : List UInt8) : Outcome :=
  ⟨1, output, f.render⟩

/-- The greatest number of cells that can be asked for. -/
def heapLimit : Nat := 0xffffffffffffffff

/-- The exit code of a result: its lowest byte. -/
def exitCode (value : Word) : Nat :=
  value.toUInt64.toUInt8.toNat

/-- The messages about memory that was not given back. -/
def leakMessages (heap : Heap) : String :=
  String.join (heap.leaks.map fun b => s!"Leak at: {b.pointer.toInt} with size {b.length}\n")

/-- Interprets a program. -/
def interpret (o : Options) (p : Program) : Outcome :=
  match Text.Decimal.readNat heapLimit o.heap.toList with
  | .error e => .ofFailure (.error s!"Bad heap capacity: {o.heap}" [e.message]) []
  | .ok capacity =>
    match Interpreter.start p (.ofCapacity capacity) {} with
    | .error f => .ofFailure (.error "Failed to initialize globals" [f.message]) []
    | .ok interpreter =>
      let (result, after) := interpreter.run Interpreter.ampleFuel (o.input :: o.arguments)
      let output := after.machine.output.bytes.toList
      match result with
      | .ok value =>
        ⟨exitCode value, output, if o.leaks then leakMessages after.machine.heap else ""⟩
      | .error (.exit code) => ⟨exitCode code, output, ""⟩
      | .error (.fault f) => .ofFailure (.error "Runtime error" [f.message]) output
      | .error .outOfFuel => .ofFailure (.error "Runtime error" ["Out of fuel"]) output

/-- The tokens and the program of a source. -/
def parseSource (source : Source) : Except Failure (List (Located Token) × Program) :=
  match tokenize source.text with
  | .error errors =>
    .error (.report ⟨"error", source, errors.map fun e => ⟨e.offset, e.value.message⟩⟩)
  | .ok tokens =>
    match parse tokens with
    | .error e => .error (.report ⟨"error", source, [⟨e.offset, e.value.message⟩]⟩)
    | .ok p => .ok (tokens, p)

/-- The text of a list of tokens, one on a line. -/
def tokenDump (tokens : List (Located Token)) : String :=
  String.join (tokens.map fun t => t.outline ++ "\n")

section

variable {m : Type → Type} [Monad m]

/-- A step of a run. -/
abbrev Step (m : Type → Type) (α : Type) := ExceptT Failure m α

/-- A step that fails in the given context. -/
def within {ε α : Type} (context : String) (causes : ε → List String) (x : m (Except ε α)) :
    Step m α :=
  ExceptT.mk do return (← x).mapError fun e => .error context (causes e)

/-- The text of the input with the files it includes, nested to the given depth at most. -/
def sourceText (s : Surroundings m) (depth : Nat) (o : Options) (t : Target) : Step m String := do
  let text ← within s!"Failed to read: {o.input}" (fun e => [e.message]) (s.readText o.input)
  let directories := Include.defaultDirectories t.name ++ o.includeDirectories
  let find (path : String) := Include.search s.readText path (Include.candidates directories path)
  let expanded := (Include.expandWithin find depth text).run.run' []
  within "Preprocessing failed" (fun (e : IncludeError) => e.message :: e.causes) expanded

/-- Writes the tokens and the outline of a program beside the output, or else beside the input. -/
def dump (s : Surroundings m) (o : Options) (tokens : List (Located Token)) (p : Program) :
    Step m Unit := do
  let base := o.output?.getD o.input
  within "Failed to write token dump" (fun (e : FileError) => [e.message])
    (s.writeText (Path.sibling base "tokens") (tokenDump tokens))
  within "Failed to write AST dump" (fun (e : FileError) => [e.message])
    (s.writeText (Path.sibling base "ast") p.outline.render)

/-- Compiles a program for a target. -/
def compile (s : Surroundings m) (o : Options) (t : Target) (p : Program) : Step m Unit := do
  let output := o.output?.getD ""
  match OutputMode.ofPath? output with
  | none => throw (.error s!"Cannot infer output mode from: {output}" [])
  | some mode =>
    match t.generate p with
    | .error e => throw (.error s!"Code generation failed for {t.name}" [e.message])
    | .ok text =>
      within s!"Failed to generate: {output}" (fun (e : BuildError) => e.message :: e.causes)
        (t.build s mode output text o.strip).run

/-- The steps of a run. -/
def steps (s : Surroundings m) (depth : Nat) (o : Options) : Step m Outcome := do
  match Target.ofName? o.target with
  | none => throw (.error s!"Unknown target: {o.target}" [])
  | some t =>
    let text ← sourceText s depth o t
    let (tokens, p) ← ExceptT.mk (pure (parseSource ⟨o.input, text⟩))
    if o.dump then dump s o tokens p
    if o.interpret then return interpret o p
    compile s o t p
    return ⟨0, [], ""⟩

/-- A whole run, in which includes are nested to the given depth at most. -/
def run (s : Surroundings m) (depth : Nat) (o : Options) : m Outcome := do
  match ← (steps s depth o).run with
  | .ok outcome => return outcome
  | .error f => return .ofFailure f []

end

end Firestorm.CommandLine
