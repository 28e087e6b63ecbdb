import Firestorm.Datatype

/-!
# Operation codes of the stack machine

## Main definitions

* `Opcode`, `Opcode.byte`, `Opcode.mnemonic`, `Opcode.ofByte?`, `Opcode.ofMnemonic?`,
  `Bytecode.natives`, `Bytecode.typeTag`.

## Main results

* `Opcode.ofByte?_byte`, `Opcode.ofMnemonic?_mnemonic`: codes and names are distinct.
-/

namespace Firestorm

/-- The operations of the stack machine. -/
inductive Opcode
  | global
  | assign
  | assignIndexed
  | load
  | loadIndexed
  | number
  | string
  | goto
  | gotoTrue
  | gotoFalse
  | invoke
  | invokeNative
  | return_
  | variable_
  | increase
  | decrease
  | add
  | sub
  | mul
  | div
  | mod
  | less
  | lessEquals
  | more
  | moreEquals
  | equals
  | notEquals
  | or
  | and
  | xor
  | not
  | shiftLeft
  | shiftRight
  | invert
  | noreturn
  | delete
deriving Repr, DecidableEq, Inhabited

namespace Opcode

/-- All operations in the order of their codes. -/
def all : List Opcode :=
  [global, assign, assignIndexed, load, loadIndexed, number, string, goto, gotoTrue, gotoFalse,
    invoke, invokeNative, return_, variable_, increase, decrease, add, sub, mul, div, mod, less,
    lessEquals, more, moreEquals, equals, notEquals, or, and, xor, not, shiftLeft, shiftRight,
    invert, noreturn, delete]

/-- The code of an operation. -/
def byte : Opcode → UInt8
  | global => 0
  | assign => 2
  | assignIndexed => 3
  | load => 4
  | loadIndexed => 5
  | number => 6
  | string => 7
  | goto => 8
  | gotoTrue => 9
  | gotoFalse => 10
  | invoke => 11
  | invokeNative => 12
  | return_ => 14
  | variable_ => 15
  | increase => 16
  | decrease => 17
  | add => 18
  | sub => 19
  | mul => 20
  | div => 21
  | mod => 22
  | less => 23
  | lessEquals => 24
  | more => 25
  | moreEquals => 26
  | equals => 27
  | notEquals => 28
  | or => 29
  | and => 30
  | xor => 31
  | not => 32
  | shiftLeft => 33
  | shiftRight => 34
  | invert => 35
  | noreturn => 99
  | delete => 100

/-- The name of an operation. -/
def mnemonic : Opcode → String
  | global => "global"
  | assign => "assign"
  | assignIndexed => "assign_indexed"
  | load => "load"
  | loadIndexed => "load_indexed"
  | number => "number"
  | string => "string"
  | goto => "goto"
  | gotoTrue => "goto_true"
  | gotoFalse => "goto_false"
  | invoke => "invoke"
  | invokeNative => "invoke_native"
  | return_ => "return"
  | variable_ => "variable"
  | increase => "increase"
  | decrease => "decrease"
  | add => "add"
  | sub => "sub"
  | mul => "mul"
  | div => "div"
  | mod => "mod"
  | less => "less"
  | lessEquals => "less_equals"
  | more => "more"
  | moreEquals => "more_equals"
  | equals => "equals"
  | notEquals => "not_equals"
  | or => "or"
  | and => "and"
  | xor => "xor"
  | not => "not"
  | shiftLeft => "shift_left"
  | shiftRight => "shift_right"
  | invert => "invert"
  | noreturn => "noreturn"
  | delete => "delete"

/-- The operation with the given code. -/
def ofByte? (byte : UInt8) : Option Opcode :=
  all.find? fun op => op.byte == byte

/-- The operation with the given name. -/
def ofMnemonic? (name : String) : Option Opcode :=
  all.find? fun op => op.mnemonic == name

theorem ofByte?_byte (op : Opcode) : ofByte? op.byte = some op := by
  cases op <;> decide

theorem ofMnemonic?_mnemonic (op : Opcode) : ofMnemonic? op.mnemonic = some op := by
  cases op <;> decide

end Opcode

namespace Bytecode

/-- The functions that the machine provides, in the order of their indices. -/
def natives : List String :=
  ["printc", "allocate", "deallocate", "do_exit"]

/-- The name of the section that sets the globals to their initial values. -/
def globalsSection : String := "__globals"

/-- The number of the first local variable of a function; globals are numbered from zero. -/
def localSlotBase : Nat := 0x100000000

/-- The code of a scalar kind. -/
def typeTag : Kind → UInt8
  | .int => 1
  | .chr => 2
  | .str => 3

end Bytecode

end Firestorm
