import Firestorm.Text.Listing
import Firestorm.Word

/-!
# Instructions of x86-64

The instructions that native code for x86-64 is made of, with the text of each.

## Main definitions

* `X86.Reg`, `X86.file`, `X86.Address`, `X86.Width`, `X86.Instruction`, `X86.Instruction.render`,
  `X86.Line`, `X86.Line.render`.
-/

namespace Firestorm.X86

/-- The general registers. -/
inductive Reg
  | rax
  | rbx
  | rcx
  | rdx
  | rsi
  | rdi
  | r8
  | r9
  | r10
  | r11
  | r12
  | r13
  | r14
  | r15
  | rbp
  | rsp
deriving Repr, DecidableEq, Inhabited

namespace Reg

/-- The name of a register. -/
def name : Reg → String
  | rax => "rax"
  | rbx => "rbx"
  | rcx => "rcx"
  | rdx => "rdx"
  | rsi => "rsi"
  | rdi => "rdi"
  | r8 => "r8"
  | r9 => "r9"
  | r10 => "r10"
  | r11 => "r11"
  | r12 => "r12"
  | r13 => "r13"
  | r14 => "r14"
  | r15 => "r15"
  | rbp => "rbp"
  | rsp => "rsp"

/-- The name of the lowest byte of a register. -/
def lowName : Reg → String
  | rax => "al"
  | rbx => "bl"
  | rcx => "cl"
  | rdx => "dl"
  | rsi => "sil"
  | rdi => "dil"
  | r8 => "r8b"
  | r9 => "r9b"
  | r10 => "r10b"
  | r11 => "r11b"
  | r12 => "r12b"
  | r13 => "r13b"
  | r14 => "r14b"
  | r15 => "r15b"
  | rbp => "bpl"
  | rsp => "spl"

end Reg

/-- The file of registers, in order. The pointers to the frame and to the stack are not part of it.
-/
def fileOrder : Vector Reg 14 :=
  #v[.rax, .rbx, .rcx, .rdx, .rsi, .rdi, .r8, .r9, .r10, .r11, .r12, .r13, .r14, .r15]

/-- The register at a place of the file. -/
def file (index : Fin 14) : Reg := fileOrder.get index

/-- The width of an operand in memory. -/
inductive Width
  | byte
  | qword
deriving Repr, DecidableEq, Inhabited

/-- The name of a width. -/
def Width.name : Width → String
  | byte => "byte"
  | qword => "qword"

/-- An address: a distance below the frame pointer, a label, or the content of a register. -/
inductive Address
  | frame (distance : Nat)
  | label (name : String)
  | register (r : Reg)
deriving Repr, DecidableEq, Inhabited

/-- The text of an address. -/
def Address.render : Address → String
  | frame distance => s!"[rbp - {distance}]"
  | label name => s!"[{name}]"
  | register r => s!"[{r.name}]"

/-- The text of an operand in memory. -/
def memory (width : Width) (address : Address) : String :=
  s!"{width.name} {address.render}"

/-- The operations on two registers. -/
inductive AluOp
  | add
  | sub
  | imul
  | and
  | or
  | xor
deriving Repr, DecidableEq, Inhabited

/-- The mnemonic of an operation on two registers. -/
def AluOp.mnemonic : AluOp → String
  | add => "add"
  | sub => "sub"
  | imul => "imul"
  | and => "and"
  | or => "or"
  | xor => "xor"

/-- The directions of a shift. Shifting right keeps the sign. -/
inductive ShiftOp
  | shl
  | sar
deriving Repr, DecidableEq, Inhabited

/-- The mnemonic of a shift. -/
def ShiftOp.mnemonic : ShiftOp → String
  | shl => "shl"
  | sar => "sar"

/-- The suffix of an instruction that a comparison controls. -/
def conditionSuffix : CompareOp → String
  | .equals => "e"
  | .notEquals => "ne"
  | .less => "l"
  | .lessEquals => "le"
  | .greater => "g"
  | .greaterEquals => "ge"

/-- The instructions. `load` extends a byte with zeros, `shift` takes the amount from the lowest
byte of `rcx`, `divide` divides `rdx:rax` by the word on top of the stack, `setEqual` writes the
lowest byte and `extendLow` extends it. -/
inductive Instruction
  | push (r : Reg)
  | pop (r : Reg)
  | mov (target source : Reg)
  | movConst (target : Reg) (value : Int)
  | movLabel (target : Reg) (label : String)
  | load (target : Reg) (width : Width) (address : Address)
  | store (width : Width) (address : Address) (source : Reg)
  | increase (width : Width) (address : Address)
  | decrease (width : Width) (address : Address)
  | alu (op : AluOp) (target source : Reg)
  | addConst (target : Reg) (value : Nat)
  | subConst (target : Reg) (value : Nat)
  | scale (target : Reg) (factor : Nat)
  | shift (op : ShiftOp) (target : Reg)
  | exchange (first second : Reg)
  | extendSign
  | divide
  | compare (left right : Reg)
  | test (r : Reg)
  | moveIf (condition : CompareOp) (target source : Reg)
  | setEqual (target : Reg)
  | extendLow (target : Reg)
  | negate (target : Reg)
  | complement (target : Reg)
  | jump (label : String)
  | jumpIfZero (label : String)
  | jumpIfNotZero (label : String)
  | call (label : String)
  | ret
  | syscall
deriving Repr, DecidableEq, Inhabited

namespace Instruction

/-- The text of two registers. -/
def pair (target source : Reg) : String :=
  s!"{target.name}, {source.name}"

/-- The mnemonic and the operands of an instruction. -/
def parts : Instruction → String × Option String
  | push r => ("push", r.name)
  | pop r => ("pop", r.name)
  | mov target source => ("mov", pair target source)
  | movConst target value => ("mov", s!"{target.name}, {value}")
  | movLabel target label => ("mov", s!"{target.name}, {label}")
  | load target .byte address => ("movzx", s!"{target.name}, {memory .byte address}")
  | load target .qword address => ("mov", s!"{target.name}, {memory .qword address}")
  | store .byte address source => ("mov", s!"{memory .byte address}, {source.lowName}")
  | store .qword address source => ("mov", s!"{memory .qword address}, {source.name}")
  | increase width address => ("inc", memory width address)
  | decrease width address => ("dec", memory width address)
  | alu op target source => (op.mnemonic, pair target source)
  | addConst target value => ("add", s!"{target.name}, {value}")
  | subConst target value => ("sub", s!"{target.name}, {value}")
  | scale target factor => ("imul", s!"{target.name}, {target.name}, {factor}")
  | shift op target => (op.mnemonic, s!"{target.name}, cl")
  | exchange first second => ("xchg", pair first second)
  | extendSign => ("cqo", none)
  | divide => ("idiv", "qword [rsp]")
  | compare left right => ("cmp", pair left right)
  | test r => ("test", pair r r)
  | moveIf condition target source => ("cmov" ++ conditionSuffix condition, pair target source)
  | setEqual target => ("sete", target.lowName)
  | extendLow target => ("movzx", s!"{target.name}, {target.lowName}")
  | negate target => ("neg", target.name)
  | complement target => ("not", target.name)
  | jump label => ("jmp", label)
  | jumpIfZero label => ("jz", label)
  | jumpIfNotZero label => ("jnz", label)
  | call label => ("call", label)
  | ret => ("ret", none)
  | syscall => ("syscall", none)

/-- The line of an instruction. -/
def render (i : Instruction) : String :=
  Text.instructionLine i.parts.1 i.parts.2

end Instruction

/-- A part of the data of a string: bytes that stand for themselves, or one byte as a number. -/
inductive Fragment
  | quoted (bytes : List UInt8)
  | byte (value : UInt8)
deriving Repr, DecidableEq, Inhabited

/-- The text of a part. -/
def Fragment.render : Fragment → String
  | quoted bytes => "\"" ++ String.ofList (bytes.map fun b => Char.ofNat b.toNat) ++ "\""
  | byte value => toString value.toNat

/-- The sections of assembly text. -/
inductive SectionName
  | text
  | data
deriving Repr, DecidableEq, Inhabited

/-- The name of a section. -/
def SectionName.render : SectionName → String
  | text => ".text"
  | data => ".data"

/-- A line of assembly text. -/
inductive Line
  | bits64
  | section_ (name : SectionName)
  | global (symbol : String)
  | label (name : String)
  | instruction (i : Instruction)
  | quad (label : String) (value : Word)
  | address (label target : String)
  | byte (label : String) (value : UInt8)
  | fragments (label : String) (parts : List Fragment)
  | verbatim (code : String)
deriving Repr, DecidableEq, Inhabited

/-- The text of a line. -/
def Line.render : Line → String
  | bits64 => "[bits 64]"
  | section_ name => s!"[section {name.render}]"
  | global symbol => s!"[global {symbol}]"
  | label name => name ++ ":"
  | instruction i => i.render
  | quad name value => s!"{name}: dq {value.toInt}"
  | address name target => s!"{name}: dq {target}"
  | byte name value => s!"{name}: db {value.toNat}"
  | fragments name parts => name ++ ": db " ++ String.intercalate ", " (parts.map Fragment.render)
  | verbatim code => code

end Firestorm.X86
