import Firestorm.Native.Primitive
import Firestorm.Native.Riscv.Instruction
import Firestorm.Program
import Firestorm.Text.Utf8

/-!
# Primitives on RISC-V

A frame starts with the return address and the frame pointer of the caller; locals lie behind them.
The constants of additions, loads and stores have twelve bits, so that larger ones go through a
register that is not part of the file.

## Main definitions

* `Riscv.convention`, `Riscv.fitsImmediate`, `Riscv.lower`.
-/

namespace Firestorm.Riscv

open Native (Convention Place Datum Primitive)

/-- Thirteen registers, and frames that start with two words for the caller. -/
def convention : Convention := ⟨13, 16, by decide⟩

/-- Whether a constant can be part of an addition, a load or a store. -/
def fitsImmediate (value : Int) : Bool :=
  -2048 ≤ value && value < 2048

/-- The width of a variable of the given size. -/
def widthOf (size : Nat) : Width :=
  if size = 1 then .byte else .double

/-- The instructions that make a variable accessible, and the offset and the base where it is then
found. -/
def locate : Place → List Instruction × Nat × Reg
  | .frame offset =>
    if fitsImmediate offset then ([], offset, framePointer)
    else ([.loadConst addressRegister offset,
      .alu .add addressRegister addressRegister framePointer], 0, addressRegister)
  | .data label => ([.loadLabel addressRegister label], 0, addressRegister)

/-- Adds a number to the pointer to the stack. -/
def adjustStack (delta : Int) : List Instruction :=
  if fitsImmediate delta then [.addConst .sp .sp delta]
  else [.loadConst scratch delta, .alu .add .sp .sp scratch]

/-- The space on the stack for registers that are put aside, a multiple of sixteen. -/
def spillSize (count : Nat) : Nat :=
  (count * 8 + 15) / 16 * 16

/-- Multiplies an index by the size of an element. -/
def scaleIndex (index : Reg) (size : Nat) : List Instruction :=
  if size = 1 then [] else [.loadConst scratch size, .alu .mul index index scratch]

/-- The operation of an operator. -/
def aluOp : BinaryOp → AluOp
  | .add => .add
  | .sub => .sub
  | .mul => .mul
  | .div => .div
  | .mod => .rem
  | .and => .and
  | .or => .or
  | .xor => .xor
  | .shiftLeft => .sll
  | .shiftRight => .sra

/-- The branch that is taken if a comparison holds. Half of them need their operands exchanged. -/
def branchOn (op : CompareOp) (left right : Reg) (label : String) : Instruction :=
  match op with
  | .equals => .branch .beq left right label
  | .notEquals => .branch .bne left right label
  | .less => .branch .blt left right label
  | .lessEquals => .branch .bge right left label
  | .greater => .branch .blt right left label
  | .greaterEquals => .branch .bge left right label

/-- Puts registers on the stack. -/
def save (registers : List Reg) : List Instruction :=
  if registers.isEmpty then []
  else
    .addConst .sp .sp (-(spillSize registers.length : Int)) ::
      registers.zipIdx.map fun (r, i) => .store .double r (8 * i) .sp

/-- Takes registers from the stack. -/
def restore (registers : List Reg) : List Instruction :=
  if registers.isEmpty then []
  else
    registers.zipIdx.map (fun (r, i) => .load .double r (8 * i) .sp) ++
      [.addConst .sp .sp (spillSize registers.length)]

/-- The instructions of the primitives that are code within a function without labels. -/
def code : Primitive 13 → List Instruction
  | .prologue frame =>
    adjustStack (-(frame : Int)) ++
      [.store .double .ra 0 .sp, .store .double framePointer 8 .sp, .move framePointer .sp]
  | .epilogue frame noreturn =>
    [.move .sp framePointer, .load .double .ra 0 .sp, .load .double framePointer 8 .sp] ++
      adjustStack frame ++ [if noreturn then .call Program.unreachable else .ret]
  | .jump label => [.jump label]
  | .jumpIfZero r label => [.branchIfZero (file r) label]
  | .jumpIfNotZero r label => [.branchIfNotZero (file r) label]
  | .loadConst target value => [.loadConst (file target) value.toInt]
  | .loadAddress target label => [.loadLabel (file target) label]
  | .load target place size =>
    let (before, offset, base) := locate place
    before ++ [.load (widthOf size) (file target) offset base]
  | .store place value size =>
    let (before, offset, base) := locate place
    before ++ [.store (widthOf size) (file value) offset base]
  | .step place size delta =>
    let (before, offset, base) := locate place
    before ++ [.load (widthOf size) scratch offset base, .addConst scratch scratch delta,
      .store (widthOf size) scratch offset base]
  | .loadElement base index size =>
    scaleIndex (file index) size ++ [.alu .add (file base) (file base) (file index),
      .load (widthOf size) (file base) 0 (file base)]
  | .storeElement base index value size =>
    scaleIndex (file index) size ++ [.alu .add (file base) (file base) (file index),
      .store (widthOf size) (file value) 0 (file base)]
  | .binary op target operand => [.alu (aluOp op) (file target) (file target) (file operand)]
  | .not target => [.isZero (file target) (file target)]
  | .unary .plus _ => []
  | .unary .minus target => [.negate (file target) (file target)]
  | .unary .bitNot target => [.complement (file target) (file target)]
  | .bitTest target index scratch =>
    [.loadConst (file scratch) 1, .alu .sll (file scratch) (file scratch) (file index),
      .alu .and (file target) (file target) (file scratch)]
  | .save registers => save (registers.map file)
  | .restore registers => restore (registers.map file)
  | .call function => [.call function]
  | .copy target source => [.move (file target) (file source)]
  | _ => []

/-- Replaces the target by one if a comparison holds, else by zero. -/
def compareLines (op : CompareOp) (target operand scratch : Reg) (label : String) : List Line :=
  [.instruction (.loadConst scratch 1), .instruction (branchOn op target operand label),
    .instruction (.loadConst scratch 0), .label label, .instruction (.move target scratch)]

/-- The registers that the caller of the entry expects to be kept, with their offsets. -/
def preserved : List (Reg × Nat) := [(.ra, 0), (.s0, 8), (.s1, 16), (.s2, 24)]

/-- The code that the system calls: it passes the count and the list of arguments on. -/
def entryCode (function : String) : List Instruction :=
  [.addConst .sp .sp (-32)] ++ preserved.map (fun (r, offset) => .store .double r offset .sp) ++
    [.move (file 0) .a0, .move (file 1) .a1, .call function, .move .a0 (file 0)] ++
    preserved.map (fun (r, offset) => .load .double r offset .sp) ++ [.addConst .sp .sp 32, .ret]

/-- The code that ends the program with status one. -/
def trapCode : List Instruction :=
  [.loadConst .a7 93, .loadConst .a0 1, .ecall]

/-- The lines of a primitive. -/
def lower : Primitive 13 → List Line
  | .text => [.text]
  | .data => [.data]
  | .exportSymbol symbol => [.global symbol]
  | .label name => [.label name]
  | .compare op target operand scratch label =>
    compareLines op (file target) (file operand) (file scratch) label
  | .datum label (.quad value) => [.align, .quad label value]
  | .datum label (.byte value) => [.byte label value]
  | .datum label (.address target) => [.align, .address label target]
  | .string label content => [.string label (Text.utf8 content.toList)]
  | .entry function =>
    [.global "main", .label "main"] ++ (entryCode function).map .instruction
  | .trap name => .label name :: trapCode.map .instruction
  | .verbatim text => [.verbatim text]
  | p => (code p).map .instruction

end Firestorm.Riscv
