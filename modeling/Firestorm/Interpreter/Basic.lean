import Firestorm.Heap
import Firestorm.Program
import Firestorm.Symbols.Function
import Firestorm.Symbols.Global

/-!
# The state of a run

A run works on the global variables, the heap and the bytes printed so far. It stops early when the
program asks for it, when a fault occurs, or when the bound on its length is used up; the last is
kept apart from the faults, as it says nothing about the program.

## Main definitions

* `Variable`, `Frame`, `Output`, `Machine`, `Fault`, `Fault.message`, `Halt`, `Exec`.
-/

namespace Firestorm

/-- A word as a variable of the datatype holds it: a scalar character keeps the low byte. -/
def Datatype.truncate (d : Datatype) (value : Word) : Word :=
  match d with
  | ⟨.chr, false⟩ => value &&& 0xff
  | _ => value

/-- A variable with its value. -/
structure Variable where
  datatype : Datatype
  value : Word
deriving Repr, DecidableEq, Inhabited

/-- A variable to which a value has been assigned. -/
def Variable.holding (d : Datatype) (value : Word) : Variable :=
  ⟨d, d.truncate value⟩

/-- The variables of a function, or of the program, by name. -/
abbrev Frame := Table Variable

/-- The bytes printed so far; no more than the limit can be printed. A byte that has been printed
has arrived: nothing is held back that could still be lost when a run ends. -/
structure Output where
  bytes : Array UInt8 := #[]
  limit : Option Nat := none
deriving Repr

/-- Whether one more byte can be printed. -/
def Output.hasRoom (o : Output) : Bool :=
  match o.limit with
  | none => true
  | some n => o.bytes.size < n

/-- The state of a run. -/
structure Machine where
  globals : Frame := ∅
  heap : Heap
  output : Output := {}
deriving Repr

/-- What goes wrong in a run. -/
inductive Fault
  | symbol (error : SymbolError)
  | heap (error : HeapError)
  | output
  | noEntryPoint
  | datatypeMismatch (callee parameter : String) (expected found : Datatype)
  | unreachable (name : String)
  | divisionByZero
  | bitAssignment (name : String)
  | unknownNative (name : String)
deriving Repr, DecidableEq, Inhabited

/-- The wording of a fault. -/
def Fault.message : Fault → String
  | symbol error => error.message
  | heap error => error.message
  | output => "I/O error"
  | noEntryPoint => s!"Program has no `{Program.entryPoint}` function"
  | datatypeMismatch callee parameter expected found =>
    s!"Argument `{parameter}` of `{callee}` expects {expected.spelling}, found {found.spelling}"
  | unreachable name => s!"Control reached the end of noreturn function `{name}`"
  | divisionByZero => "Division by zero"
  | bitAssignment name => s!"Assignment to a bit of scalar `{name}` is not supported"
  | unknownNative name => s!"Assembly function `{name}` is not a known native"

/-- Why a run stops before its end: the program asked for it, a fault, or the bound on its length.
-/
inductive Halt
  | exit (code : Word)
  | fault (fault : Fault)
  | outOfFuel
deriving Repr, DecidableEq, Inhabited

/-- A computation on the state that may stop early. The state survives a stop. -/
abbrev Exec (α : Type) := ExceptT Halt (StateM Machine) α

namespace Exec

variable {α : Type}

/-- Stops with a fault. -/
def fault (f : Fault) : Exec α :=
  throw (.fault f)

/-- The value of a look-up in the tables of names. -/
def ofSymbols (x : Except SymbolError α) : Exec α :=
  match x with
  | .ok a => pure a
  | .error e => fault (.symbol e)

/-- An operation on the heap that yields a value. -/
@[inline] def onHeap (operation : Heap → Except HeapError (α × Heap)) : Exec α :=
  fun m =>
    match operation m.heap with
    | .ok (a, heap) => (.ok a, { m with heap := heap })
    | .error e => (.error (.fault (.heap e)), m)

/-- Gives out a block. -/
def allocate (length : Word) : Exec Word :=
  onHeap fun h => h.allocate length

/-- Takes back a block. -/
def deallocate (pointer : Word) : Exec Unit :=
  onHeap fun h => (h.deallocate pointer).map fun h => ((), h)

/-- The content of a cell. -/
def readCell (pointer index : Word) : Exec Word :=
  fun m =>
    match m.heap.read pointer index with
    | .ok value => (.ok value, m)
    | .error e => (.error (.fault (.heap e)), m)

/-- Changes the content of a cell. -/
def writeCell (pointer index value : Word) : Exec Unit :=
  onHeap fun h => (h.write pointer index value).map fun h => ((), h)

/-- The pointer to a string. -/
def intern (text : String) : Exec Word :=
  onHeap fun h => h.intern text

/-- The value of a constant. -/
def literal (value : Literal) : Exec Word :=
  onHeap fun h => h.literal value

/-- Prints a byte. -/
def print (byte : UInt8) : Exec Unit :=
  fun m =>
    if m.output.hasRoom then
      (.ok (), { m with output := { m.output with bytes := m.output.bytes.push byte } })
    else (.error (.fault .output), m)

end Exec

end Firestorm
