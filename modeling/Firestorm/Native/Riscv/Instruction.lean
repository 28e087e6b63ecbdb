import Firestorm.Text.Listing
import Firestorm.Word

/-!
# Instructions of RISC-V

The instructions that native code for 64-bit RISC-V is made of, with the text of each.

## Main definitions

* `Riscv.Reg`, `Riscv.file`, `Riscv.Instruction`, `Riscv.Instruction.render`, `Riscv.Line`,
  `Riscv.Line.render`.
-/

namespace Firestorm.Riscv

/-- A register by its number, or by the name of its role in calls. -/
inductive Reg
  | x (number : Fin 32)
  | ra
  | sp
  | s0
  | s1
  | s2
  | a0
  | a1
  | a7
deriving Repr, DecidableEq, Inhabited

namespace Reg

/-- The name under which a register is written. -/
def name : Reg → String
  | x number => s!"x{number.val}"
  | ra => "ra"
  | sp => "sp"
  | s0 => "s0"
  | s1 => "s1"
  | s2 => "s2"
  | a0 => "a0"
  | a1 => "a1"
  | a7 => "a7"

/-- The number of a register; two names with one number mean the same register. -/
def number : Reg → Fin 32
  | x number => number
  | ra => 1
  | sp => 2
  | s0 => 8
  | s1 => 9
  | s2 => 18
  | a0 => 10
  | a1 => 11
  | a7 => 17

end Reg

/-- The file of registers, in order. -/
def fileOrder : Vector Reg 13 :=
  #v[.x 5, .x 6, .x 7, .x 9, .x 10, .x 11, .x 12, .x 13, .x 14, .x 15, .x 16, .x 17, .x 18]

/-- The register at a place of the file. -/
def file (index : Fin 13) : Reg := fileOrder.get index

/-- A register for values that no primitive leaves behind. -/
def scratch : Reg := .x 30

/-- A register for addresses that no primitive leaves behind. -/
def addressRegister : Reg := .x 31

/-- The pointer to the frame. Locals are found from here, since the pointer to the stack moves when
registers are put aside. -/
def framePointer : Reg := .s0

/-- The operations on two registers. -/
inductive AluOp
  | add
  | sub
  | mul
  | div
  | rem
  | and
  | or
  | xor
  | sll
  | sra
deriving Repr, DecidableEq, Inhabited

/-- The mnemonic of an operation on two registers. -/
def AluOp.mnemonic : AluOp → String
  | add => "add"
  | sub => "sub"
  | mul => "mul"
  | div => "div"
  | rem => "rem"
  | and => "and"
  | or => "or"
  | xor => "xor"
  | sll => "sll"
  | sra => "sra"

/-- The conditions of a branch on two registers. -/
inductive BranchOp
  | beq
  | bne
  | blt
  | bge
deriving Repr, DecidableEq, Inhabited

/-- The mnemonic of a branch. -/
def BranchOp.mnemonic : BranchOp → String
  | beq => "beq"
  | bne => "bne"
  | blt => "blt"
  | bge => "bge"

/-- The width of an operand in memory. -/
inductive Width
  | byte
  | double
deriving Repr, DecidableEq, Inhabited

/-- The mnemonic of a load, which extends a byte with zeros. -/
def Width.loadMnemonic : Width → String
  | byte => "lbu"
  | double => "ld"

/-- The mnemonic of a store. -/
def Width.storeMnemonic : Width → String
  | byte => "sb"
  | double => "sd"

/-- The instructions. Loads and stores find their operand at an offset from a base. -/
inductive Instruction
  | loadConst (target : Reg) (value : Int)
  | loadLabel (target : Reg) (label : String)
  | alu (op : AluOp) (target left right : Reg)
  | addConst (target source : Reg) (value : Int)
  | load (width : Width) (target : Reg) (offset : Nat) (base : Reg)
  | store (width : Width) (source : Reg) (offset : Nat) (base : Reg)
  | move (target source : Reg)
  | isZero (target source : Reg)
  | negate (target source : Reg)
  | complement (target source : Reg)
  | branch (op : BranchOp) (left right : Reg) (label : String)
  | branchIfZero (test : Reg) (label : String)
  | branchIfNotZero (test : Reg) (label : String)
  | jump (label : String)
  | call (label : String)
  | ret
  | ecall
deriving Repr, DecidableEq, Inhabited

namespace Instruction

/-- The mnemonic and the operands of an instruction. -/
def parts : Instruction → String × Option String
  | loadConst target value => ("li", s!"{target.name}, {value}")
  | loadLabel target label => ("la", s!"{target.name}, {label}")
  | alu op target left right => (op.mnemonic, s!"{target.name}, {left.name}, {right.name}")
  | addConst target source value => ("addi", s!"{target.name}, {source.name}, {value}")
  | load width target offset base => (width.loadMnemonic, s!"{target.name}, {offset}({base.name})")
  | store width source offset base =>
    (width.storeMnemonic, s!"{source.name}, {offset}({base.name})")
  | move target source => ("mv", s!"{target.name}, {source.name}")
  | isZero target source => ("seqz", s!"{target.name}, {source.name}")
  | negate target source => ("neg", s!"{target.name}, {source.name}")
  | complement target source => ("not", s!"{target.name}, {source.name}")
  | branch op left right label => (op.mnemonic, s!"{left.name}, {right.name}, {label}")
  | branchIfZero test label => ("beqz", s!"{test.name}, {label}")
  | branchIfNotZero test label => ("bnez", s!"{test.name}, {label}")
  | jump label => ("j", label)
  | call label => ("call", label)
  | ret => ("ret", none)
  | ecall => ("ecall", none)

/-- The line of an instruction. -/
def render (i : Instruction) : String :=
  Text.instructionLine i.parts.1 i.parts.2

end Instruction

/-- A byte as it stands in the data of a string. -/
def escapeByte (b : UInt8) : List Char :=
  if b = 0x0a then ['\\', 'n']
  else if b = 0x09 then ['\\', 't']
  else if b = 0x22 ∨ b = 0x5c then ['\\', Char.ofNat b.toNat]
  else if 0x20 ≤ b ∧ b ≤ 0x7e then [Char.ofNat b.toNat]
  else
    let n := b.toNat
    ['\\', Nat.digitChar (n / 64), Nat.digitChar (n / 8 % 8), Nat.digitChar (n % 8)]

/-- A line of assembly text. A string is followed by a zero byte. -/
inductive Line
  | text
  | data
  | global (symbol : String)
  | align
  | label (name : String)
  | instruction (i : Instruction)
  | quad (label : String) (value : Word)
  | address (label target : String)
  | byte (label : String) (value : UInt8)
  | string (label : String) (bytes : List UInt8)
  | verbatim (code : String)
deriving Repr, DecidableEq, Inhabited

/-- The text of a line. -/
def Line.render : Line → String
  | text => ".text"
  | data => ".data"
  | global symbol => ".global " ++ symbol
  | align => ".balign 8"
  | label name => name ++ ":"
  | instruction i => i.render
  | quad name value => s!"{name}: .quad {value.toInt}"
  | address name target => s!"{name}: .quad {target}"
  | byte name value => s!"{name}: .byte {value.toNat}"
  | string name bytes => name ++ ": .string \"" ++ String.ofList (bytes.flatMap escapeByte) ++ "\""
  | verbatim code => code

end Firestorm.Riscv
