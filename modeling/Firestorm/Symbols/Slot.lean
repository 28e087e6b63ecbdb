import Firestorm.Datatype
import Firestorm.Symbols.Error
import Firestorm.Symbols.Table

/-!
# Slots of a stack frame

Every local variable of a function has a slot in the function's frame. Slots are given out in the
order of declaration, each at the next offset that is a multiple of its size, behind the bytes that
the frame reserves for itself. The whole frame is padded to sixteen bytes. A name that is declared
again with the same datatype keeps its slot.

## Main definitions

* `alignUp`, `Slot`, `FrameLayout`, `FrameLayout.declare`, `FrameLayout.size`.
-/

namespace Firestorm

/-- The least multiple of `alignment` that is at least `n`. -/
def alignUp (n alignment : Nat) : Nat :=
  (n + alignment - 1) / alignment * alignment

/-- A place in a frame for a variable of a datatype. -/
structure Slot where
  datatype : Datatype
  offset : Nat
deriving Repr, DecidableEq, Inhabited

/-- The slots given out so far and the first byte behind them. -/
structure FrameLayout where
  slots : Table Slot
  next : Nat
deriving Repr, DecidableEq

namespace FrameLayout

/-- A frame that starts with `reserved` bytes for its own use. -/
def reserving (reserved : Nat) : FrameLayout :=
  ⟨∅, reserved⟩

/-- The slot of a declared variable. -/
def get? (layout : FrameLayout) (name : String) : Option Slot :=
  layout.slots.get? name

/-- The slot of a declaration, with the layout behind it. -/
def declare (layout : FrameLayout) (b : Binding) : Except SymbolError (Slot × FrameLayout) :=
  match layout.get? b.name with
  | some slot =>
    if slot.datatype = b.datatype then .ok (slot, layout) else .error (.redefined b.name)
  | none =>
    let slot : Slot := ⟨b.datatype, alignUp layout.next b.datatype.size⟩
    .ok (slot, ⟨layout.slots.set b.name slot, slot.offset + b.datatype.size⟩)

/-- The bytes of the frame, padded to a multiple of sixteen. -/
def size (layout : FrameLayout) : Nat :=
  alignUp layout.next 16

end FrameLayout

end Firestorm
