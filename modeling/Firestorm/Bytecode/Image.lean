import Firestorm.Bytecode.Item
import Firestorm.Bytecode.Opcode
import Firestorm.Program
import Firestorm.Symbols.Table

/-!
# Linked images

An image starts with a header of three references: to the entry point, to the initial values of the
globals, and to the code for control that must not come there. The items follow. First every symbol
gets its value, the position of a label counting from the start of the header; then every reference
is replaced by the value of its symbol. An image that cannot be finished still has the bytes that
were settled before the error.

## Main definitions

* `LinkError`, `Bytecode.headerItems`, `Bytecode.Draft`, `Bytecode.draft`, `Bytecode.link`,
  `Bytecode.overlay`.
-/

namespace Firestorm

/-- Why an image cannot be finished. -/
inductive LinkError
  | unresolved (symbol : String)
  | duplicate (symbol : String)
deriving Repr, DecidableEq, Inhabited

/-- The wording of an error. -/
def LinkError.message : LinkError → String
  | unresolved symbol => s!"Unresolved symbol `{symbol}`"
  | duplicate symbol => s!"Symbol `{symbol}` is defined more than once"

namespace Bytecode

/-- The header of an image. -/
def headerItems : List Item :=
  [.reference Program.entryPoint, .reference globalsSection, .reference Program.unreachable]

/-- The values of symbols. -/
abbrev SymbolValues := Table UInt64

/-- The symbol that an item defines when it stands at the given position, with its value. -/
def Item.definition? (position : Nat) : Item → Option (String × UInt64)
  | label name => some (name, position.toUInt64)
  | constant name value => some (name, value)
  | _ => none

/-- The bytes of an item, with zeros in place of a reference. -/
def Item.blankBytes : Item → List UInt8
  | label _ | constant .. => []
  | byte value => [value]
  | quad value => wordBytes value.toUInt64
  | reference _ => List.replicate 8 0
  | bytes content => content

/-- The symbols of items that start at a position; if one is defined again, that symbol and the
items before its second definition. -/
def collect :
    (position : Nat) → SymbolValues → List Item → Except (String × List Item) SymbolValues
  | _, symbols, [] => .ok symbols
  | position, symbols, item :: rest =>
    let here : Except String SymbolValues :=
      match item.definition? position with
      | none => .ok symbols
      | some (name, value) =>
        if (symbols.get? name).isSome then .error name else .ok (symbols.set name value)
    match here with
    | .error name => .error (name, [])
    | .ok symbols =>
      (collect (position + item.size) symbols rest).mapError fun e => (e.1, item :: e.2)

/-- The bytes of an image, and what keeps it from being finished. -/
structure Draft where
  bytes : List UInt8
  error? : Option LinkError
deriving Repr, DecidableEq, Inhabited

/-- The bytes of items with the references replaced in order, up to the first one whose symbol has
no value. -/
def patch (symbols : SymbolValues) : List Item → Draft
  | [] => ⟨[], none⟩
  | .reference symbol :: rest =>
    match symbols.get? symbol with
    | some value =>
      let tail := patch symbols rest
      ⟨wordBytes value ++ tail.bytes, tail.error?⟩
    | none => ⟨(Item.reference symbol :: rest).flatMap Item.blankBytes, some (.unresolved symbol)⟩
  | item :: rest =>
    let tail := patch symbols rest
    ⟨item.blankBytes ++ tail.bytes, tail.error?⟩

/-- The image of items, as far as it can be finished. -/
def draft (items : List Item) : Draft :=
  let all := headerItems ++ items
  match collect 0 ∅ all with
  | .error (symbol, before) => ⟨before.flatMap Item.blankBytes, some (.duplicate symbol)⟩
  | .ok symbols => patch symbols all

/-- The bytes of the image of items. -/
def link (items : List Item) : Except LinkError (List UInt8) :=
  let d := draft items
  match d.error? with
  | none => .ok d.bytes
  | some error => .error error

/-- A buffer after bytes have been written at a position: a gap before them is filled with zeros,
and what lies behind them stays. -/
def overlay (buffer : List UInt8) (position : Nat) (bytes : List UInt8) : List UInt8 :=
  buffer.take position ++ List.replicate (position - buffer.length) 0 ++ bytes ++
    buffer.drop (position + bytes.length)

end Bytecode

end Firestorm
