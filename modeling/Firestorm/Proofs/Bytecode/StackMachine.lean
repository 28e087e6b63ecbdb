import Mathlib.Logic.Function.Basic
import Firestorm.Bytecode.Image
import Firestorm.Bytecode.Instruction
import Firestorm.Heap

/-!
# The stack machine

The machine that runs linked images. Code is read byte by byte: an operation, then its operands,
words with the lowest byte first. Operations work on one stack of words that all functions share, on
the globals, on the heap and on the bytes printed so far. Each activation of a function has a cursor
into the image and variables of its own. A number from `localSlotBase` on is that of a variable of
the activation, a smaller one that of a global.

An operation that finds no code, no value or no variable, or that the heap refuses, is a defect of
the image, and the machine is stuck. The machine takes a bound on the depth of its run, counting
every operation and every activation as one step deeper.

## Main definitions

* `StackMachine.Command`, `StackMachine.fetch`, `StackMachine.State`, `StackMachine.Frame`,
  `StackMachine.perform`, `StackMachine.run`, `StackMachine.execute`.
-/

namespace Firestorm.StackMachine

open Bytecode

/-! ### Reading code -/

/-- The first byte of code. -/
def readByte : List UInt8 → Option (UInt8 × List UInt8)
  | [] => none
  | b :: code => some (b, code)

/-- The word in the first eight bytes of code. -/
def readWord : List UInt8 → Option (UInt64 × List UInt8)
  | b₀ :: b₁ :: b₂ :: b₃ :: b₄ :: b₅ :: b₆ :: b₇ :: code =>
    some ([b₀, b₁, b₂, b₃, b₄, b₅, b₆, b₇].foldr (fun b value => b.toUInt64 + 256 * value) 0, code)
  | _ => none

/-- The text behind its length; a byte of zero closes it. -/
def readString (code : List UInt8) : Option (String × List UInt8) := do
  let (length, code) ← readWord code
  if code.length ≤ length.toNat then none
  else
    let text ← String.fromUTF8? (code.take length.toNat).toByteArray
    return (text, code.drop (length.toNat + 1))

/-- An operation with its operands. -/
inductive Command
  | declare (isGlobal : Bool) (slot : UInt64) (chr array : Bool)
  | access (access : Access) (slot : UInt64)
  | number (value : Word)
  | string (content : String)
  | jump (kind : JumpKind) (target : UInt64)
  | invoke (target : UInt64)
  | invokeNative (index : UInt64)
  | plain (op : PlainOp)
deriving Repr, DecidableEq

/-- The declaration of a variable behind its operation. -/
def readDeclaration (isGlobal : Bool) (code : List UInt8) : Option (Command × List UInt8) := do
  let (slot, code) ← readWord code
  let (kind, code) ← readByte code
  let (array, code) ← readByte code
  return (.declare isGlobal slot (kind == typeTag .chr) (array != 0), code)

/-- The operands of an operation. -/
def readOperands (op : Opcode) (code : List UInt8) : Option (Command × List UInt8) :=
  let word (command : UInt64 → Command) : Option (Command × List UInt8) :=
    (readWord code).map fun (w, code) => (command w, code)
  match op with
  | .global => readDeclaration true code
  | .variable_ => readDeclaration false code
  | .assign => word (.access .assign)
  | .assignIndexed => word (.access .assignIndexed)
  | .load => word (.access .load)
  | .loadIndexed => word (.access .loadIndexed)
  | .increase => word (.access .increase)
  | .decrease => word (.access .decrease)
  | .number => word fun w => .number w.toInt64
  | .string => (readString code).map fun (text, code) => (.string text, code)
  | .goto => word (.jump .always)
  | .gotoTrue => word (.jump .ifTrue)
  | .gotoFalse => word (.jump .ifFalse)
  | .invoke => word .invoke
  | .invokeNative => word .invokeNative
  | .return_ => some (.plain .return_, code)
  | .noreturn => some (.plain .noreturn, code)
  | .delete => some (.plain .delete, code)
  | .not => some (.plain .not, code)
  | .invert => some (.plain .invert, code)
  | .add => some (.plain (.binary .add), code)
  | .sub => some (.plain (.binary .sub), code)
  | .mul => some (.plain (.binary .mul), code)
  | .div => some (.plain (.binary .div), code)
  | .mod => some (.plain (.binary .mod), code)
  | .and => some (.plain (.binary .and), code)
  | .or => some (.plain (.binary .or), code)
  | .xor => some (.plain (.binary .xor), code)
  | .shiftLeft => some (.plain (.binary .shiftLeft), code)
  | .shiftRight => some (.plain (.binary .shiftRight), code)
  | .less => some (.plain (.compare .less), code)
  | .lessEquals => some (.plain (.compare .lessEquals), code)
  | .more => some (.plain (.compare .greater), code)
  | .moreEquals => some (.plain (.compare .greaterEquals), code)
  | .equals => some (.plain (.compare .equals), code)
  | .notEquals => some (.plain (.compare .notEquals), code)

/-- The first operation of code. -/
def fetch (code : List UInt8) : Option (Command × List UInt8) := do
  let (byte, code) ← readByte code
  readOperands (← Opcode.ofByte? byte) code

/-! ### Performing operations -/

/-- A variable: its value, and whether its kind is the character and whether it is an array. -/
structure Cell where
  value : Word
  chr : Bool
  array : Bool
deriving Repr, DecidableEq

/-- A variable to which a value has been assigned. -/
def Cell.assign (cell : Cell) (value : Word) : Cell :=
  { cell with value := if cell.chr && !cell.array then value &&& 0xff else value }

/-- Variables by number. -/
abbrev Slots := UInt64 → Option Cell

/-- What all functions share. The top of the stack comes first. -/
structure State where
  stack : List Word := []
  globals : Slots := fun _ => none
  heap : Heap
  output : Array UInt8 := #[]

/-- An activation of a function. -/
structure Frame where
  code : List UInt8
  slots : Slots := fun _ => none
  noreturn : Bool := false

namespace State

/-- The state with one more word on the stack. -/
def push (s : State) (value : Word) : State :=
  { s with stack := value :: s.stack }

/-- The word on top of the stack and the state without it. -/
def pop (s : State) : Option (Word × State) :=
  match s.stack with
  | [] => none
  | value :: stack => some (value, { s with stack := stack })

theorem pop_of_stack {s : State} {value : Word} {stack : List Word} (h : s.stack = value :: stack) :
    s.pop = some (value, { s with stack := stack }) := by
  simp only [pop, h]

end State

/-- The variable with the given number. -/
def lookup (frame : Frame) (s : State) (slot : UInt64) : Option Cell :=
  if localSlotBase ≤ slot.toNat then frame.slots slot else s.globals slot

/-- What an operation leads to: the next operation, a call, a return from the activation, a return
from a function that must not return, or the end of the program. -/
inductive Action
  | next (frame : Frame) (s : State)
  | call (address : UInt64) (frame : Frame) (s : State)
  | return_ (s : State)
  | trap (s : State)
  | exit (code : Word) (s : State)

/-- Changes the variable with the given number. -/
def store (frame : Frame) (s : State) (slot : UInt64) (cell : Cell) : Action :=
  if localSlotBase ≤ slot.toNat then
    .next { frame with slots := Function.update frame.slots slot (some cell) } s
  else .next frame { s with globals := Function.update s.globals slot (some cell) }

/-- Reads or changes a variable. -/
def performAccess (access : Access) (cell : Cell) (slot : UInt64) (frame : Frame) (s : State) :
    Option Action :=
  match access with
  | .load => some (.next frame (s.push cell.value))
  | .loadIndexed => do
    let (index, s) ← s.pop
    if cell.array then
      let value ← (s.heap.read cell.value index).toOption
      return .next frame (s.push value)
    else return .next frame (s.push (Word.bitTest cell.value index))
  | .assign => do
    let (value, s) ← s.pop
    return store frame s slot (cell.assign value)
  | .assignIndexed => do
    let (value, s) ← s.pop
    let (index, s) ← s.pop
    let heap ← (s.heap.write cell.value index (if cell.chr then value &&& 0xff else value)).toOption
    return .next frame { s with heap := heap }
  | .increase => some (store frame s slot (cell.assign (cell.value + 1)))
  | .decrease => some (store frame s slot (cell.assign (cell.value - 1)))

/-- Calls a function that the machine itself provides. -/
def performNative (name : String) (argument : Word) (frame : Frame) (s : State) : Option Action :=
  match name with
  | "printc" =>
    some (.next frame ({ s with output := s.output.push argument.toUInt64.toUInt8 }.push 0))
  | "allocate" => do
    let (pointer, heap) ← (s.heap.allocate argument).toOption
    return .next frame ({ s with heap := heap }.push pointer)
  | "deallocate" => do
    let heap ← (s.heap.deallocate argument).toOption
    return .next frame ({ s with heap := heap }.push 0)
  | _ => some (.exit argument s)

/-- Performs an operation without operands. -/
def performPlain (op : PlainOp) (frame : Frame) (s : State) : Option Action :=
  match op with
  | .binary op => do
    let (b, s) ← s.pop
    let (a, s) ← s.pop
    return .next frame (s.push (← op.eval a b))
  | .compare op => do
    let (b, s) ← s.pop
    let (a, s) ← s.pop
    return .next frame (s.push (Word.ofBool (op.eval a b)))
  | .not => do
    let (value, s) ← s.pop
    return .next frame (s.push (~~~value))
  | .invert => do
    let (value, s) ← s.pop
    return .next frame (s.push (Word.ofBool (value == 0)))
  | .delete => do
    let (_, s) ← s.pop
    return .next frame s
  | .noreturn => some (.next { frame with noreturn := true } s)
  | .return_ => some (if frame.noreturn then .trap s else .return_ s)

/-- Performs an operation. -/
def perform (image : List UInt8) (command : Command) (frame : Frame) (s : State) : Option Action :=
  match command with
  | .declare isGlobal slot chr array =>
    let cell : Cell := ⟨0, chr, array⟩
    if isGlobal then
      some (.next frame { s with globals := Function.update s.globals slot (some cell) })
    else some (.next { frame with slots := Function.update frame.slots slot (some cell) } s)
  | .access access slot => do performAccess access (← lookup frame s slot) slot frame s
  | .number value => some (.next frame (s.push value))
  | .string content => do
    let (pointer, heap) ← (s.heap.intern content).toOption
    return .next frame ({ s with heap := heap }.push pointer)
  | .jump .always target => some (.next { frame with code := image.drop target.toNat } s)
  | .jump .ifTrue target => do
    let (value, s) ← s.pop
    return .next (if value = 0 then frame else { frame with code := image.drop target.toNat }) s
  | .jump .ifFalse target => do
    let (value, s) ← s.pop
    return .next (if value = 0 then { frame with code := image.drop target.toNat } else frame) s
  | .invoke target => some (.call target frame s)
  | .invokeNative index => do
    let (argument, s) ← s.pop
    performNative (← natives[index.toNat]?) argument frame s
  | .plain op => performPlain op frame s

/-- Performs the next operation of an activation. -/
def step (image : List UInt8) (frame : Frame) (s : State) : Option Action := do
  let (command, code) ← fetch frame.code
  perform image command { frame with code := code } s

/-! ### Running images -/

/-- How an activation ends. -/
inductive Result
  | returned (s : State)
  | exited (code : Word) (s : State)
  | stuck
  | outOfFuel

/-- The addresses in the header of an image. -/
structure Header where
  entryPoint : UInt64
  globals : UInt64
  unreachable : UInt64
deriving Repr, DecidableEq

/-- The header of an image. -/
def readHeader (image : List UInt8) : Option Header := do
  let (entryPoint, code) ← readWord image
  let (globals, code) ← readWord code
  let (unreachable, _) ← readWord code
  return ⟨entryPoint, globals, unreachable⟩

/-- The activation of the function at an address. -/
def Frame.entering (image : List UInt8) (address : UInt64) : Frame :=
  { code := image.drop address.toNat }

/-- Runs an activation until it returns or the program asks to stop. -/
def run (image : List UInt8) (unreachable : UInt64) : (fuel : Nat) → Frame → State → Result
  | 0, _, _ => .outOfFuel
  | fuel + 1, frame, s =>
    match step image frame s with
    | none => .stuck
    | some (.next frame s) => run image unreachable fuel frame s
    | some (.call address frame s) =>
      match run image unreachable fuel (.entering image address) s with
      | .returned s => run image unreachable fuel frame s
      | result => result
    | some (.return_ s) => .returned s
    | some (.trap s) =>
      match run image unreachable fuel (.entering image unreachable) s with
      | .returned _ => .stuck
      | result => result
    | some (.exit code s) => .exited code s

/-- The heap in which the cells behind a pointer hold pointers to the arguments. -/
def placeArguments (argv : Word) : (index : Nat) → List String → Heap → Option Heap
  | _, [], heap => some heap
  | index, argument :: arguments, heap => do
    let (pointer, heap) ← (heap.intern argument).toOption
    let heap ← (heap.write argv (Int64.ofNat index) pointer).toOption
    placeArguments argv (index + 1) arguments heap

/-- The state in which the entry point finds its arguments. -/
def enterArguments (arguments : List String) (s : State) : Option State := do
  let (_, s) ← s.pop
  let count := Int64.ofNat arguments.length
  let (argv, heap) ← (s.heap.allocate count).toOption
  let heap ← placeArguments argv 0 arguments heap
  return ({ s with heap := heap }.push count).push argv

/-- The value and the printed bytes of an activation that has ended. -/
def Result.observed? : Result → Option (Word × Array UInt8)
  | .returned s => s.pop.map fun (value, s) => (value, s.output)
  | .exited code s => some (code, s.output)
  | _ => none

/-- Runs an image on arguments: the initial values of the globals, then the entry point. There is a
result if the bound suffices and the machine is never stuck. -/
def execute (image : List UInt8) (fuel : Nat) (heap : Heap) (arguments : List String) :
    Option (Word × Array UInt8) := do
  let header ← readHeader image
  match run image header.unreachable fuel (.entering image header.globals) { heap := heap } with
  | .returned s =>
    let s ← enterArguments arguments s
    (run image header.unreachable fuel (.entering image header.entryPoint) s).observed?
  | result => result.observed?

end Firestorm.StackMachine
