import Firestorm.Program
import Firestorm.Text.Utf8

/-!
# The heap

The heap is a fixed number of cells of one word each, and a pointer is the index of a cell. Blocks
of cells are given out by first fit: at the lowest start where enough free cells follow each other.
A block is released through the pointer to its first cell. Strings are kept one byte to a cell with
a zero behind them; equal strings share one block, which is never released. Reading and writing look
only at the bounds of the heap, not at blocks.

Each operation on blocks and cells checks all that it needs before it changes anything. So a failure
has no heap of its own: the heap behind it is the one in front of it.

## Main definitions

* `HeapError`, `Heap.Block`, `Heap`, `Heap.firstFit?`, `Heap.allocate`, `Heap.deallocate`,
  `Heap.read`, `Heap.write`, `Heap.intern`, `Heap.literal`, `Heap.usedCount`, `Heap.leaks`.
-/

namespace Firestorm

/-- Why an operation on the heap fails. -/
inductive HeapError
  | outOfMemory (length : Word)
  | invalidPointer (pointer : Word)
  | outOfRange (address : Word)
deriving Repr, DecidableEq, Inhabited

/-- The wording of an error. -/
def HeapError.message : HeapError → String
  | outOfMemory length => s!"Out of memory, no free run of {length.toInt} cells"
  | invalidPointer pointer => s!"Invalid pointer {pointer.toInt}"
  | outOfRange address => s!"Heap access out of range at cell {address.toInt}"

/-- A row of cells that has been given out. -/
structure Heap.Block where
  start : Nat
  length : Nat
deriving Repr, DecidableEq, Inhabited

/-- The pointer to a block. -/
def Heap.Block.pointer (b : Heap.Block) : Word :=
  Int64.ofNat b.start

/-- A heap with a fixed number of cells. -/
structure Heap where
  cells : Array Word
  used : Array Bool
  blocks : List Heap.Block
  strings : List (String × Word)
deriving Repr

namespace Heap

/-- The number of cells of a heap unless another is asked for. -/
def defaultCapacity : Nat := 1024

/-- A heap of free cells that hold zero. -/
def ofCapacity (capacity : Nat) : Heap :=
  ⟨Array.replicate capacity 0, Array.replicate capacity false, [], []⟩

/-- The number of cells. -/
def capacity (h : Heap) : Nat :=
  h.cells.size

/-- The number of occupied cells. -/
def usedCount (h : Heap) : Nat :=
  h.used.count true

/-- Whether a cell exists and is free. -/
def isFree (h : Heap) (cell : Nat) : Bool :=
  h.used[cell]? == some false

/-- Whether `length` cells from `start` on are free. -/
def isFreeRun (h : Heap) (start length : Nat) : Bool :=
  (List.range length).all fun k => h.isFree (start + k)

/-- The lowest start of a row of `length` free cells. -/
def firstFit? (h : Heap) (length : Nat) : Option Nat :=
  if length ≤ h.capacity then
    (List.range (h.capacity - length + 1)).find? fun start => h.isFreeRun start length
  else none

/-- The occupied cells once `length` cells from `start` on are marked. -/
def mark (used : Array Bool) (start : Nat) (value : Bool) : (length : Nat) → Array Bool
  | 0 => used
  | n + 1 => mark (used.setIfInBounds start value) (start + 1) value n

/-- The heap with one more block. -/
def reserve (h : Heap) (start length : Nat) : Heap :=
  { h with
    used := mark h.used start true length
    blocks := h.blocks ++ [⟨start, length⟩] }

/-- Gives out a block of at least one cell. -/
@[inline] def allocate (h : Heap) (length : Word) : Except HeapError (Word × Heap) :=
  if length < 0 then .error (.outOfMemory length)
  else
    let size := max length.toNatClampNeg 1
    match h.firstFit? size with
    | none => .error (.outOfMemory length)
    | some start => .ok (Int64.ofNat start, h.reserve start size)

/-- Whether a pointer points to a string. Strings and pointers to them are only ever added together,
so the pointers are read off the table of strings. -/
def isInterned (h : Heap) (pointer : Word) : Bool :=
  h.strings.any fun entry => entry.2 == pointer

/-- Takes back the block with the given pointer, which must not hold a string. -/
@[inline] def deallocate (h : Heap) (pointer : Word) : Except HeapError Heap :=
  if h.isInterned pointer then .error (.invalidPointer pointer)
  else
    match h.blocks.find? fun b => b.pointer == pointer with
    | none => .error (.invalidPointer pointer)
    | some b =>
      .ok { h with
        used := mark h.used b.start false b.length
        blocks := h.blocks.eraseP fun b => b.pointer == pointer }

/-- The cell at an index behind a pointer. -/
def cell (h : Heap) (pointer index : Word) : Except HeapError Nat :=
  let address := pointer + index
  if 0 ≤ address ∧ address.toNatClampNeg < h.capacity then .ok address.toNatClampNeg
  else .error (.outOfRange address)

/-- The content of the cell at an index behind a pointer. -/
def read (h : Heap) (pointer index : Word) : Except HeapError Word :=
  match h.cell pointer index with
  | .ok cell => .ok (h.cells.getD cell 0)
  | .error e => .error e

/-- The heap with another content of one cell. -/
def setCell (h : Heap) (cell : Nat) (value : Word) : Heap :=
  { h with cells := h.cells.setIfInBounds cell value }

/-- Changes the content of the cell at an index behind a pointer. -/
@[inline] def write (h : Heap) (pointer index value : Word) : Except HeapError Heap :=
  match h.cell pointer index with
  | .ok cell => .ok (h.setCell cell value)
  | .error e => .error e

/-- The heap with the given contents from a cell on. -/
def setCells (h : Heap) (start : Nat) : List Word → Heap
  | [] => h
  | value :: values => setCells (h.setCell start value) (start + 1) values

/-- The contents of the cells of a string: its bytes and a zero. -/
def stringCells (text : String) : List Word :=
  (Text.utf8 text.toList).map (fun byte => Int64.ofNat byte.toNat) ++ [0]

/-- The pointer to a string, which gets a block when it is seen for the first time. -/
@[inline] def intern (h : Heap) (text : String) : Except HeapError (Word × Heap) :=
  match h.strings.lookup text with
  | some pointer => .ok (pointer, h)
  | none =>
    let contents := stringCells text
    match h.allocate (Int64.ofNat contents.length) with
    | .error e => .error e
    | .ok (pointer, h) =>
      let h := h.setCells pointer.toNatClampNeg contents
      .ok (pointer, { h with strings := (text, pointer) :: h.strings })

/-- The value of a constant; a string has the pointer to it as its value. -/
@[inline] def literal (h : Heap) : Literal → Except HeapError (Word × Heap)
  | .number value => .ok (value, h)
  | .chr byte => .ok (Int64.ofNat byte.toNat, h)
  | .str content => h.intern content

/-- The blocks that hold no string, in the order in which they were given out. -/
def leaks (h : Heap) : List Block :=
  h.blocks.filter fun b => !h.isInterned b.pointer

end Heap

end Firestorm
