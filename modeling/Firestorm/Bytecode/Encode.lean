import Firestorm.Bytecode.Item
import Firestorm.Bytecode.Opcode
import Firestorm.Symbols.Table
import Firestorm.Text.Blank
import Firestorm.Text.Decimal
import Firestorm.Text.Line
import Firestorm.Text.Utf8

/-!
# From the text of bytecode to items

The text is read line by line. A line opens or closes a section, places a label, or holds an
instruction with its operands. Variables declared in a section are numbered there and forgotten when
the next section opens; any other variable is a reference to a global, and globals are numbered in
the order of their declaration. Labels that are numbers belong to their section.

## Main definitions

* `EncodeError`, `Bytecode.Encoder`, `Bytecode.encodeLine`, `Bytecode.encode`.
-/

namespace Firestorm

/-- Why a line cannot be encoded. Lines are numbered from one. -/
inductive EncodeError
  | outsideSection (line : Nat)
  | unknownInstruction (line : Nat) (mnemonic : String)
  | badOperand (line : Nat)
  | unknownNative (line : Nat) (name : String)
deriving Repr, DecidableEq, Inhabited

/-- The wording of an error. -/
def EncodeError.message : EncodeError → String
  | outsideSection line => s!"line {line}: instruction outside of a section"
  | unknownInstruction line mnemonic => s!"line {line}: unknown instruction `{mnemonic}`"
  | badOperand line => s!"line {line}: missing or malformed operand"
  | unknownNative line name => s!"line {line}: unknown native function `{name}`"

namespace Bytecode

/-- The open section, the numbers of its variables, and the numbers of the globals. -/
structure Encoder where
  current : Option String := none
  locals : Table Nat := ∅
  globals : Table Nat := ∅

/-- The words of a text, which blanks divide, behind a word whose characters so far are given from
the last to the first. -/
def wordsFrom : (word : List Char) → List Char → List String
  | word, [] => if word.isEmpty then [] else [String.ofList word.reverse]
  | word, c :: cs =>
    if Text.isBlank c then
      if word.isEmpty then wordsFrom [] cs else String.ofList word.reverse :: wordsFrom [] cs
    else wordsFrom (c :: word) cs

/-- The words of a text. -/
def words (cs : List Char) : List String :=
  wordsFrom [] cs

/-- The symbol of a global variable. -/
def globalSymbol (name : String) : String := "$" ++ name

/-- The symbol of a label that belongs to a section. -/
def sectionSymbol (sectionName label : String) : String :=
  sectionName ++ "." ++ label

/-- The kind with the given name. -/
def kindOf? (name : String) : Option Kind :=
  [Kind.int, .chr, .str].find? fun k => k.spelling == name

/-- The truth value with the given name. -/
def boolOf? (name : String) : Option Bool :=
  if name = "true" then some true else if name = "false" then some false else none

/-- What a string between quotation marks stands for. A backslash in front of anything but `n` or
another backslash stands for itself. -/
def unescape : List Char → List Char
  | '\\' :: 'n' :: cs => '\n' :: unescape cs
  | '\\' :: '\\' :: cs => '\\' :: unescape cs
  | '\\' :: c :: cs => '\\' :: c :: unescape cs
  | c :: cs => c :: unescape cs
  | [] => []

/-- What stands between the first and the last quotation mark, if there are two. -/
def betweenQuotes? (cs : List Char) : Option (List Char) :=
  let behind := (cs.dropWhile (· != '"')).drop 1
  if '"' ∈ behind then some ((behind.reverse.dropWhile (· != '"')).drop 1).reverse else none

/-- The symbol that a label defines. -/
def labelSymbol (sectionName : String) (label : List Char) : String :=
  match Text.Decimal.readNat 0xffffffff label with
  | .ok n => sectionSymbol sectionName (toString n)
  | .error _ => String.ofList label

/-- The items that declare a variable under a number. -/
def declarationItems (slot : Nat) (kind : Kind) (array : Bool) : List Item :=
  [.quad (Int64.ofNat slot), .byte (typeTag kind), .byte (if array then 1 else 0)]

/-- An operand that must be there. -/
def required {α : Type} (line : Nat) : Option α → Except EncodeError α
  | some a => .ok a
  | none => .error (.badOperand line)

namespace Encoder

/-- The number of a global, with the definition of its symbol if it is new. -/
def globalSlot (e : Encoder) (name : String) : Nat × List Item × Encoder :=
  match e.globals.get? name with
  | some slot => (slot, [], e)
  | none =>
    let slot := e.globals.names.length
    (slot, [.constant (globalSymbol name) slot.toUInt64],
      { e with globals := e.globals.set name slot })

/-- The number of a variable of the section. -/
def localSlot (e : Encoder) (name : String) : Nat × Encoder :=
  match e.locals.get? name with
  | some slot => (slot, e)
  | none =>
    let slot := localSlotBase + e.locals.names.length
    (slot, { e with locals := e.locals.set name slot })

/-- The operand for an access to a variable. -/
def variableItem (e : Encoder) (name : String) : Item :=
  match e.locals.get? name with
  | some slot => .quad (Int64.ofNat slot)
  | none => .reference (globalSymbol name)

/-- The name, the kind and the shape of a declared variable. -/
def declaration (line : Nat) (operands : List String) :
    Except EncodeError (String × Kind × Bool) := do
  let name ← required line operands[0]?
  let kind ← required line (operands[1]? >>= kindOf?)
  let array ← required line (operands[2]? >>= boolOf?)
  return (name, kind, array)

/-- The items of the operands of an instruction. -/
def operandItems (e : Encoder) (line : Nat) (sectionName : String) (op : Opcode)
    (operands : List Char) : Except EncodeError (List Item × Encoder) := do
  let ws := words operands
  match op with
  | .global =>
    let (name, kind, array) ← declaration line ws
    let (slot, definition, e) := e.globalSlot name
    return (definition ++ declarationItems slot kind array, e)
  | .variable_ =>
    let (name, kind, array) ← declaration line ws
    let (slot, e) := e.localSlot name
    return (declarationItems slot kind array, e)
  | .assign | .assignIndexed | .load | .loadIndexed | .increase | .decrease =>
    return ([e.variableItem (← required line ws.head?)], e)
  | .number =>
    let word ← required line ws.head?
    let value ← required line (Text.Decimal.readInt 0x7fffffffffffffff word.toList).toOption
    return ([.quad (Int64.ofInt value)], e)
  | .string =>
    let content := Text.utf8 (unescape (← required line (betweenQuotes? operands)))
    return ([.quad (Int64.ofNat content.length), .bytes (content ++ [0])], e)
  | .goto | .gotoTrue | .gotoFalse =>
    return ([.reference (sectionSymbol sectionName (← required line ws.head?))], e)
  | .invoke => return ([.reference (← required line ws.head?)], e)
  | .invokeNative =>
    let name ← required line ws.head?
    match natives.idxOf? name with
    | some index => return ([.quad (Int64.ofNat index)], e)
    | none => throw (.unknownNative line name)
  | _ => if operands.isEmpty then return ([], e) else throw (.badOperand line)

/-- The items of an instruction. -/
def instructionItems (e : Encoder) (line : Nat) (sectionName : String) (text : List Char) :
    Except EncodeError (List Item × Encoder) := do
  let mnemonic := String.ofList (text.takeWhile fun c => !Text.isBlank c)
  let operands := Text.trim (text.dropWhile fun c => !Text.isBlank c)
  match Opcode.ofMnemonic? mnemonic with
  | none => throw (.unknownInstruction line mnemonic)
  | some op =>
    let (items, e) ← e.operandItems line sectionName op operands
    return (.byte op.byte :: items, e)

end Encoder

/-- The items of a line without outer blanks. -/
def encodeLine (e : Encoder) (line : Nat) (text : List Char) :
    Except EncodeError (List Item × Encoder) :=
  if text.isEmpty then .ok ([], e)
  else
    match Text.behind? "@begin".toList text with
    | some header => do
      let name ← required line (words header)[1]?
      return ([], { e with current := some name, locals := ∅ })
    | none =>
      if (Text.behind? "@end".toList text).isSome then .ok ([], { e with current := none })
      else
        match e.current with
        | none => .error (.outsideSection line)
        | some sectionName =>
          if text.getLast? = some ':' then
            .ok ([.label (labelSymbol sectionName text.dropLast)], e)
          else e.instructionItems line sectionName text

/-- The items of lines, the first of which has the given number. -/
def encodeLines : Encoder → (line : Nat) → List (List Char) → Except EncodeError (List Item)
  | _, _, [] => .ok []
  | e, line, text :: rest => do
    let (items, e) ← encodeLine e line (Text.trim text)
    return items ++ (← encodeLines e (line + 1) rest)

/-- The items of a text. -/
def encode (text : String) : Except EncodeError (List Item) :=
  encodeLines {} 1 (Text.lines text.toList)

end Bytecode

end Firestorm
