import Firestorm.Word

/-!
# Primitives of native code

Native code is first made of primitives that are the same for every machine. A machine has a file of
registers in a fixed order: the first ones take the arguments of a call, and the first one holds its
result. Primitives name registers by their place in the file.

## Main definitions

* `Native.Convention`, `Native.Place`, `Native.Datum`, `Native.Primitive`.
-/

namespace Firestorm.Native

/-- The number of registers in the file of a machine, and the bytes at the start of a frame that
belong to no variable. -/
structure Convention where
  registers : Nat
  reserved : Nat
  registers_pos : 0 < registers
deriving Repr

/-- Where a variable is stored: at an offset of the frame, or under a label of the data. -/
inductive Place
  | frame (offset : Nat)
  | data (label : String)
deriving Repr, DecidableEq, Inhabited

/-- The initial value of a global. -/
inductive Datum
  | quad (value : Word)
  | byte (value : UInt8)
  | address (label : String)
deriving Repr, DecidableEq, Inhabited

/-- The primitives for a file of `n` registers.

`load` extends a variable with zeros and `store` writes the lowest bytes of a register; `step` adds
to a variable in place. `loadElement` replaces a base by the element at an index and `storeElement`
writes that element. `binary`, `compare`, `not`, `unary` and `bitTest` replace the target by the
result. `save` puts registers aside around a call and `restore` takes them back. -/
inductive Primitive (n : Nat)
  | text
  | data
  | exportSymbol (symbol : String)
  | label (name : String)
  | prologue (frame : Nat)
  | epilogue (frame : Nat) (noreturn : Bool)
  | jump (label : String)
  | jumpIfZero (test : Fin n) (label : String)
  | jumpIfNotZero (test : Fin n) (label : String)
  | loadConst (target : Fin n) (value : Word)
  | loadAddress (target : Fin n) (label : String)
  | load (target : Fin n) (place : Place) (size : Nat)
  | store (place : Place) (value : Fin n) (size : Nat)
  | step (place : Place) (size : Nat) (delta : Int)
  | loadElement (base index : Fin n) (size : Nat)
  | storeElement (base index value : Fin n) (size : Nat)
  | binary (op : BinaryOp) (target operand : Fin n)
  | compare (op : CompareOp) (target operand scratch : Fin n) (label : String)
  | not (target : Fin n)
  | unary (op : UnaryOp) (target : Fin n)
  | bitTest (target index scratch : Fin n)
  | save (registers : List (Fin n))
  | restore (registers : List (Fin n))
  | call (function : String)
  | copy (target source : Fin n)
  | datum (label : String) (value : Datum)
  | string (label content : String)
  | entry (function : String)
  | trap (name : String)
  | verbatim (code : String)
deriving Repr, DecidableEq

end Firestorm.Native
