import Firestorm.Native.Primitive
import Firestorm.Native.X86.Instruction
import Firestorm.Program
import Firestorm.Text.Utf8

/-!
# Primitives on x86-64

Locals lie below the frame pointer. A shift takes its amount from `cl` and a division works on
`rdx:rax`, so that these registers are put aside on the stack where the primitive must keep them.

## Main definitions

* `X86.convention`, `X86.fragments`, `X86.lower`.
-/

namespace Firestorm.X86

open Native (Convention Place Datum Primitive)

/-- Fourteen registers, and frames that hold nothing but variables. -/
def convention : Convention := ⟨14, 0, by decide⟩

/-- The width of a variable of the given size. -/
def widthOf (size : Nat) : Width :=
  if size = 1 then .byte else .qword

/-- The address of a variable of the given size. -/
def addressOf (place : Place) (size : Nat) : Address :=
  match place with
  | .frame offset => .frame (offset + size)
  | .data label => .label label

/-- Whether a byte can stand for itself between quotation marks. -/
def isPlain (b : UInt8) : Bool :=
  0x20 ≤ b && b ≤ 0x7e && b != 0x22 && b != 0x5c

/-- The data of a string: bytes that can stand for themselves are put together, and a zero byte ends
the string. -/
def fragments : List UInt8 → List Fragment
  | [] => [.byte 0]
  | b :: bytes =>
    if isPlain b then
      match fragments bytes with
      | .quoted more :: rest => .quoted (b :: more) :: rest
      | rest => .quoted [b] :: rest
    else .byte b :: fragments bytes

/-- Shifts a register by the amount in another one. -/
def shiftBy (op : ShiftOp) (target amount : Reg) : List Instruction :=
  if target = .rcx then [.exchange .rcx amount, .shift op amount, .mov .rcx amount]
  else if amount = .rcx then [.shift op target]
  else [.push .rcx, .mov .rcx amount, .shift op target, .pop .rcx]

/-- Divides a register by another one and keeps the quotient or the remainder. The divisor is taken
from the stack, since it may be in a register that the division uses. -/
def divideBy (target divisor : Reg) (remainder : Bool) : List Instruction :=
  let ifNot (r : Reg) (i : Instruction) : List Instruction := if target = r then [] else [i]
  let outcome : Reg := if remainder then .rdx else .rax
  ifNot .rax (.push .rax) ++ ifNot .rdx (.push .rdx) ++ [.push divisor] ++
    ifNot .rax (.mov .rax target) ++ [.extendSign, .divide, .addConst .rsp 8] ++
    ifNot outcome (.mov target outcome) ++ ifNot .rdx (.pop .rdx) ++ ifNot .rax (.pop .rax)

/-- The operation of an operator on two registers. -/
def binary (op : BinaryOp) (target operand : Reg) : List Instruction :=
  match op with
  | .add => [.alu .add target operand]
  | .sub => [.alu .sub target operand]
  | .mul => [.alu .imul target operand]
  | .and => [.alu .and target operand]
  | .or => [.alu .or target operand]
  | .xor => [.alu .xor target operand]
  | .div => divideBy target operand false
  | .mod => divideBy target operand true
  | .shiftLeft => shiftBy .shl target operand
  | .shiftRight => shiftBy .sar target operand

/-- Replaces the target by one if a comparison holds, else by zero. -/
def compare (op : CompareOp) (target operand scratch : Reg) : List Instruction :=
  [.compare target operand, .movConst scratch 1, .movConst target 0, .moveIf op target scratch]

/-- Replaces the target by one if it is zero, else by zero. -/
def not (target : Reg) : List Instruction :=
  [.test target, .setEqual target, .extendLow target]

/-- Keeps only the bit of the target with the given index. -/
def bitTest (target index scratch : Reg) : List Instruction :=
  [.movConst scratch 1] ++ shiftBy .shl scratch index ++ [.alu .and target scratch]

/-- Multiplies an index by the size of an element. -/
def scaleIndex (index : Reg) (size : Nat) : List Instruction :=
  if size = 1 then [] else [.scale index size]

/-- The registers that the caller of the entry expects to be kept. -/
def preserved : List Reg := [.rbx, .r12, .r13, .r14, .r15]

/-- Puts registers on the stack. -/
def save (registers : List Reg) : List Instruction :=
  registers.map .push

/-- Takes registers from the stack. -/
def restore (registers : List Reg) : List Instruction :=
  registers.reverse.map .pop

/-- The instructions of the primitives that are code within a function. -/
def code : Primitive 14 → List Instruction
  | .prologue frame =>
    [.push .rbp, .mov .rbp .rsp] ++ if 0 < frame then [.subConst .rsp frame] else []
  | .epilogue _ noreturn =>
    [.mov .rsp .rbp, .pop .rbp, if noreturn then .call Program.unreachable else .ret]
  | .jump label => [.jump label]
  | .jumpIfZero r label => [.test (file r), .jumpIfZero label]
  | .jumpIfNotZero r label => [.test (file r), .jumpIfNotZero label]
  | .loadConst target value => [.movConst (file target) value.toInt]
  | .loadAddress target label => [.movLabel (file target) label]
  | .load target place size => [.load (file target) (widthOf size) (addressOf place size)]
  | .store place value size => [.store (widthOf size) (addressOf place size) (file value)]
  | .step place size delta =>
    [if delta < 0 then .decrease (widthOf size) (addressOf place size)
      else .increase (widthOf size) (addressOf place size)]
  | .loadElement base index size =>
    scaleIndex (file index) size ++
      [.alu .add (file base) (file index), .load (file base) (widthOf size) (.register (file base))]
  | .storeElement base index value size =>
    scaleIndex (file index) size ++
      [.alu .add (file base) (file index),
        .store (widthOf size) (.register (file base)) (file value)]
  | .binary op target operand => binary op (file target) (file operand)
  | .compare op target operand scratch _ => compare op (file target) (file operand) (file scratch)
  | .not target => not (file target)
  | .unary .plus _ => []
  | .unary .minus target => [.negate (file target)]
  | .unary .bitNot target => [.complement (file target)]
  | .bitTest target index scratch => bitTest (file target) (file index) (file scratch)
  | .save registers => save (registers.map file)
  | .restore registers => restore (registers.map file)
  | .call function => [.call function]
  | .copy target source => [.mov (file target) (file source)]
  | _ => []

/-- The code that the system calls: it passes the count and the list of arguments on. -/
def entryCode (function : String) : List Instruction :=
  save preserved ++ [.mov .rax .rdi, .mov .rbx .rsi, .call function] ++ restore preserved ++ [.ret]

/-- The code that ends the program with status one. -/
def trapCode : List Instruction :=
  [.movConst .rax 60, .movConst .rdi 1, .syscall]

/-- The lines of a primitive. -/
def lower : Primitive 14 → List Line
  | .text => [.bits64, .section_ .text]
  | .data => [.section_ .data]
  | .exportSymbol symbol => [.global symbol]
  | .label name => [.label name]
  | .datum label (.quad value) => [.quad label value]
  | .datum label (.byte value) => [.byte label value]
  | .datum label (.address target) => [.address label target]
  | .string label content => [.fragments label (fragments (Text.utf8 content.toList))]
  | .entry function =>
    [.global "main", .label "main"] ++ (entryCode function).map .instruction
  | .trap name => .label name :: trapCode.map .instruction
  | .verbatim text => [.verbatim text]
  | p => (code p).map .instruction

end Firestorm.X86
