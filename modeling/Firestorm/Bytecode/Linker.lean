import Firestorm.Bytecode.Image

/-!
# Linking into an output

An image is written into an output that may hold bytes already, from the position where the output
stands. The items are written in order, with zeros in place of references. When all symbols are
known the references are written over the zeros, the header first, and the output comes to stand
behind the image. After an error the output keeps what has been written.

## Main definitions

* `Bytecode.Output`, `Output.write`, `Output.seek`, `Bytecode.Linker`, `Bytecode.place`,
  `Bytecode.relocate`, `Bytecode.linkInto`.
-/

namespace Firestorm.Bytecode

/-- A buffer, and the position where it is written next. -/
structure Output where
  buffer : List UInt8 := []
  position : Nat := 0
deriving Repr, DecidableEq, Inhabited

namespace Output

/-- Writes bytes over those at the position. -/
def write (o : Output) (bytes : List UInt8) : Output :=
  ⟨overlay o.buffer o.position bytes, o.position + bytes.length⟩

/-- Moves to a position. -/
def seek (o : Output) (position : Nat) : Output :=
  ⟨o.buffer, position⟩

end Output

/-- A computation that writes to an output. If it fails, what has been written stays. -/
abbrev Linker (α : Type) := ExceptT LinkError (StateM Output) α

/-- What is known when some items have been written: the values of symbols, the references with
their offsets from the start of the image, and the offset of the next item. -/
structure Placement where
  symbols : SymbolValues := ∅
  references : List (Nat × String) := []
  offset : Nat := 0

/-- The reference that an item is when it stands at an offset. -/
def Item.reference? (offset : Nat) : Item → Option (Nat × String)
  | reference symbol => some (offset, symbol)
  | _ => none

/-- Writes an item, with zeros in place of a reference. -/
def place (p : Placement) (item : Item) : Linker Placement := do
  let symbols ←
    match item.definition? p.offset with
    | none => pure p.symbols
    | some (name, value) =>
      if (p.symbols.get? name).isSome then throw (.duplicate name)
      else pure (p.symbols.set name value)
  modify (·.write item.blankBytes)
  return {
    symbols
    references := p.references ++ (item.reference? p.offset).toList
    offset := p.offset + item.size }

/-- Writes the values of references in an image that starts at a position. -/
def relocate (base : Nat) (symbols : SymbolValues) : List (Nat × String) → Linker Unit
  | [] => return
  | (offset, symbol) :: rest => do
    match symbols.get? symbol with
    | none => throw (.unresolved symbol)
    | some value =>
      modify fun o => (o.seek (base + offset)).write (wordBytes value)
      relocate base symbols rest

/-- Writes the image of items, from where the output stands. -/
def linkInto (items : List Item) : Linker Unit := do
  let base := (← get).position
  let p ← (headerItems ++ items).foldlM place {}
  relocate base p.symbols p.references
  modify (·.seek (base + p.offset))

end Firestorm.Bytecode
