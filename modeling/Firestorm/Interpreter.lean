import Firestorm.Interpreter.Eval

/-!
# Running programs

A run calls the entry point with the number of its arguments and an array of pointers to them. The
array is taken back when the entry point has returned or the program has asked to stop, but not when
a fault ends the run. Globals, heap and output pass from one run to the next. The output holds no
byte back, so that emptying it at the end of a run always succeeds and is no step of its own.

## Main definitions

* `Interpreter`, `Interpreter.start`, `Interpreter.run`.
-/

namespace Firestorm

/-- A program that is ready to run. -/
structure Interpreter where
  functions : FunctionTable
  machine : Machine

namespace Interpreter

/-- The initial value of a global, with the heap behind it. -/
def initialValue (heap : Heap) (g : GlobalDef) : Except Fault (Word × Heap) :=
  match g.init with
  | none => .ok (0, heap)
  | some l => (heap.literal l).mapError .heap

/-- Gives a global its initial value. -/
def defineGlobal (m : Machine) (g : GlobalDef) : Except Fault Machine := do
  g.check.mapError .symbol
  let (value, heap) ← initialValue m.heap g
  let b := g.binding
  let redefined := (m.globals.get? b.name).any fun v => v.datatype ≠ b.datatype
  if redefined then throw (.symbol (.redefined b.name))
  return { m with heap, globals := m.globals.set b.name (.holding b.datatype value) }

/-- A program with its globals at their initial values. -/
def start (p : Program) (heap : Heap) (output : Output) : Except Fault Interpreter := do
  let functions ← (FunctionTable.ofProgram p).mapError .symbol
  let machine ← p.globals.foldlM defineGlobal { heap, output }
  return { functions, machine }

/-- Writes pointers to the arguments into the cells behind a pointer. -/
def storeArguments (argv : Word) : (index : Nat) → List String → Exec Unit
  | _, [] => return
  | index, argument :: arguments => do
    let pointer ← Exec.intern argument
    Exec.writeCell argv (Int64.ofNat index) pointer
    storeArguments argv (index + 1) arguments

/-- The value of a computation, or the code with which the program asked to stop. -/
def catchExit (x : Exec Word) : Exec Word :=
  fun m =>
    match x m with
    | (.error (.exit code), m) => (.ok code, m)
    | result => result

/-- Calls the entry point with the given arguments. -/
def callEntryPoint (functions : FunctionTable) (fuel : Nat) (arguments : List String) :
    Exec Word := do
  match functions.get? Program.entryPoint with
  | none => Exec.fault .noEntryPoint
  | some f =>
    let count := Int64.ofNat arguments.length
    let argv ← Exec.allocate count
    storeArguments argv 0 arguments
    let result ← catchExit
      (call functions fuel f [(some .int, count), (some (.arrayOf .str), argv)])
    Exec.deallocate argv
    return result

/-- Runs the program once. -/
def run (i : Interpreter) (fuel : Nat) (arguments : List String) :
    Except Halt Word × Interpreter :=
  let (result, machine) := callEntryPoint i.functions fuel arguments i.machine
  (result, { i with machine := machine })

/-- A bound on the depth of a run that no run of practical length reaches. -/
def ampleFuel : Nat := 1000000000000000000

end Interpreter

end Firestorm
