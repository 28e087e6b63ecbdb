import Firestorm.Bytecode.Opcode
import Firestorm.Program
import Firestorm.Text.Listing

/-!
# Instructions of the stack machine

A compiled program is a list of sections, one for the initial values of the globals and one for each
function. A section is a list of labels and instructions. The text of a section stands between a
line that opens and a line that closes it; instructions are indented by a tab, and their operands
start in a column of their own.

## Main definitions

* `Instruction`, `Instruction.opcode`, `Instruction.operands`, `CodeLine`, `Section`,
  `Section.render`, `Bytecode.escape`.
-/

namespace Firestorm

/-- What an instruction does with a variable. -/
inductive Access
  | assign
  | assignIndexed
  | load
  | loadIndexed
  | increase
  | decrease
deriving Repr, DecidableEq, Inhabited

/-- When a jump is taken: always, or if the value on top of the stack is or is not zero. -/
inductive JumpKind
  | always
  | ifTrue
  | ifFalse
deriving Repr, DecidableEq, Inhabited

/-- The instructions without operands. `not` inverts all bits, `invert` is logical negation. -/
inductive PlainOp
  | binary (op : BinaryOp)
  | compare (op : CompareOp)
  | not
  | invert
  | return_
  | noreturn
  | delete
deriving Repr, DecidableEq, Inhabited

/-- An instruction of the stack machine. -/
inductive Instruction
  | global (binding : Binding)
  | variable_ (binding : Binding)
  | access (access : Access) (name : String)
  | number (value : Word)
  | string (content : String)
  | jump (kind : JumpKind) (label : String)
  | invoke (callee : String)
  | invokeNative (callee : String)
  | plain (op : PlainOp)
deriving Repr, DecidableEq, Inhabited

/-- The operation of an access to a variable. -/
def Access.opcode : Access → Opcode
  | assign => .assign
  | assignIndexed => .assignIndexed
  | load => .load
  | loadIndexed => .loadIndexed
  | increase => .increase
  | decrease => .decrease

/-- The operation of a jump. -/
def JumpKind.opcode : JumpKind → Opcode
  | always => .goto
  | ifTrue => .gotoTrue
  | ifFalse => .gotoFalse

/-- The operation of an arithmetic operator. -/
def BinaryOp.opcode : BinaryOp → Opcode
  | add => .add
  | sub => .sub
  | mul => .mul
  | div => .div
  | mod => .mod
  | and => .and
  | or => .or
  | xor => .xor
  | shiftLeft => .shiftLeft
  | shiftRight => .shiftRight

/-- The operation of a comparison. -/
def CompareOp.opcode : CompareOp → Opcode
  | equals => .equals
  | notEquals => .notEquals
  | less => .less
  | lessEquals => .lessEquals
  | greater => .more
  | greaterEquals => .moreEquals

/-- The operation of an instruction without operands. -/
def PlainOp.opcode : PlainOp → Opcode
  | binary op => op.opcode
  | compare op => op.opcode
  | not => .not
  | invert => .invert
  | return_ => .return_
  | noreturn => .noreturn
  | delete => .delete

/-- The operation of an instruction. -/
def Instruction.opcode : Instruction → Opcode
  | global _ => .global
  | variable_ _ => .variable_
  | access a _ => a.opcode
  | number _ => .number
  | string _ => .string
  | jump kind _ => kind.opcode
  | invoke _ => .invoke
  | invokeNative _ => .invokeNative
  | plain op => op.opcode

namespace Bytecode

/-- A character as it stands in a quoted string. -/
def escapeChar (c : Char) : List Char :=
  if c = '\\' then ['\\', '\\'] else if c = '\n' then ['\\', 'n'] else [c]

/-- A string as it stands between quotation marks. -/
def escape (text : String) : String :=
  String.ofList (text.toList.flatMap escapeChar)

/-- A truth value as it stands in the text. -/
def boolWord (b : Bool) : String :=
  if b then "true" else "false"

/-- The operands that declare a variable. -/
def bindingOperands (b : Binding) : String :=
  s!"{b.name} {b.datatype.kind.spelling} {boolWord b.datatype.array}"

end Bytecode

/-- The text of the operands of an instruction, if it has any. -/
def Instruction.operands : Instruction → Option String
  | global b | variable_ b => some (Bytecode.bindingOperands b)
  | access _ name => some name
  | number value => some (toString value.toInt)
  | string content => some s!"\"{Bytecode.escape content}\""
  | jump _ label => some label
  | invoke callee | invokeNative callee => some callee
  | plain _ => none

/-- The line of an instruction. -/
def Instruction.render (i : Instruction) : String :=
  Text.instructionLine i.opcode.mnemonic i.operands

/-- A label or an instruction. -/
inductive CodeLine
  | label (name : String)
  | instruction (i : Instruction)
deriving Repr, DecidableEq, Inhabited

/-- The text of a label or an instruction. -/
def CodeLine.render : CodeLine → String
  | label name => name ++ ":"
  | instruction i => i.render

/-- What a section holds. -/
inductive SectionKind
  | globals
  | function
deriving Repr, DecidableEq, Inhabited

/-- The text of the kind of a section. -/
def SectionKind.spelling : SectionKind → String
  | globals => "globals"
  | function => "function"

/-- The code of a function or of the initial values, under its name. -/
structure Section where
  kind : SectionKind
  name : String
  code : List CodeLine
deriving Repr, DecidableEq, Inhabited

namespace Section

/-- The lines of a section. -/
def lines (s : Section) : List String :=
  [s!"@begin {s.kind.spelling} {s.name}", s!"{s.name}:"] ++ s.code.map CodeLine.render ++
    [s!"@end {s.kind.spelling}"]

/-- The text of a list of sections. -/
def renderAll (sections : List Section) : String :=
  String.join ((sections.flatMap lines).map (· ++ "\n"))

end Section

end Firestorm
