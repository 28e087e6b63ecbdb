import Firestorm.Word

/-!
# Items of an image

An image is put together from items: definitions of symbols, which take no space, and bytes, words
and references to symbols, which do. A listing shows one item on a line.

## Main definitions

* `Item`, `Item.size`, `Item.render`, `Item.renderAll`, `Bytecode.wordBytes`.
-/

namespace Firestorm.Bytecode

/-- An item of an image. A label is a symbol for the position where it stands, a constant is one for
a number, and a reference leaves space for the value of a symbol. -/
inductive Item
  | label (name : String)
  | constant (name : String) (value : UInt64)
  | byte (value : UInt8)
  | quad (value : Word)
  | reference (symbol : String)
  | bytes (content : List UInt8)
deriving Repr, DecidableEq, Inhabited

/-- The bytes of a word, the lowest first. -/
def wordBytes (value : UInt64) : List UInt8 :=
  (List.range 8).map fun i => (value.toNat >>> (8 * i)).toUInt8

/-- A byte as it stands in the string of a listing. -/
def escapeByte (b : UInt8) : List Char :=
  if b = 0x5c then ['\\', '\\']
  else if b = 0x22 then ['\\', '"']
  else if b = 0x0a then ['\\', 'n']
  else if 0x20 ≤ b ∧ b ≤ 0x7e then [Char.ofNat b.toNat]
  else ['\\', 'x', Nat.digitChar (b.toNat / 16), Nat.digitChar (b.toNat % 16)]

namespace Item

/-- The bytes that an item takes. -/
def size : Item → Nat
  | label _ | constant .. => 0
  | byte _ => 1
  | quad _ | reference _ => 8
  | bytes content => content.length

/-- The line of an item. -/
def render : Item → String
  | label name => name ++ ":"
  | constant name value => s!"{name} equ {value.toNat}"
  | byte value => s!"\tdb {value.toNat}"
  | quad value => s!"\tdq {value.toInt}"
  | reference symbol => "\tdq " ++ symbol
  | bytes content => "\tds \"" ++ String.ofList (content.flatMap escapeByte) ++ "\""

/-- The listing of items. -/
def renderAll (items : List Item) : String :=
  String.join (items.map fun item => item.render ++ "\n")

/-- The space that a list of items takes. -/
def totalSize (items : List Item) : Nat :=
  items.foldr (·.size + ·) 0

@[simp] theorem totalSize_nil : totalSize [] = 0 := rfl

@[simp] theorem totalSize_cons (item : Item) (items : List Item) :
    totalSize (item :: items) = item.size + totalSize items := rfl

@[simp] theorem totalSize_append (items more : List Item) :
    totalSize (items ++ more) = totalSize items + totalSize more := by
  induction items with
  | nil => simp
  | cons item items ih => simp [ih, Nat.add_assoc]

end Item

@[simp] theorem length_wordBytes (value : UInt64) : (wordBytes value).length = 8 := by
  simp [wordBytes]

end Firestorm.Bytecode
