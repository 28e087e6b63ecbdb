/-!
# Decimal numbers in texts

A number is read from left to right. A character that is no digit stops the reading, and so does the
first digit that takes the number beyond its bounds. A sign may stand in front.

## Main definitions

* `Text.Decimal.Defect`, `Text.Decimal.readNat`, `Text.Decimal.readInt`.
-/

namespace Firestorm.Text.Decimal

/-- Why a text is no number within the bounds. -/
inductive Defect
  | empty
  | invalidDigit
  | tooLarge
  | tooSmall
deriving Repr, DecidableEq, Inhabited

/-- The wording of a defect. -/
def Defect.message : Defect → String
  | empty => "cannot parse integer from empty string"
  | invalidDigit => "invalid digit found in string"
  | tooLarge => "number too large to fit in target type"
  | tooSmall => "number too small to fit in target type"

/-- The number whose leading digits have the given value. -/
def digitsFrom (limit : Nat) (beyond : Defect) : (value : Nat) → List Char → Except Defect Nat
  | value, [] => .ok value
  | value, c :: cs =>
    if c.isDigit then
      let next := 10 * value + (c.toNat - '0'.toNat)
      if next ≤ limit then digitsFrom limit beyond next cs else .error beyond
    else .error .invalidDigit

/-- One or more digits. -/
def digits (limit : Nat) (beyond : Defect) (cs : List Char) : Except Defect Nat :=
  if cs.isEmpty then .error .invalidDigit else digitsFrom limit beyond 0 cs

/-- A number that is at most `limit`; a plus may stand in front. -/
def readNat (limit : Nat) : List Char → Except Defect Nat
  | [] => .error .empty
  | '+' :: cs => digits limit .tooLarge cs
  | cs => digits limit .tooLarge cs

/-- A number that is at least `-limit - 1` and at most `limit`; a plus or a minus may stand in
front. -/
def readInt (limit : Nat) : List Char → Except Defect Int
  | [] => .error .empty
  | '-' :: cs => (digits (limit + 1) .tooSmall cs).map fun n => -(n : Int)
  | '+' :: cs => (digits limit .tooLarge cs).map Int.ofNat
  | cs => (digits limit .tooLarge cs).map Int.ofNat

end Firestorm.Text.Decimal
