/-!
# Words and their arithmetic

Every value of the language is a word of sixty-four bits, read as a signed number in two's
complement. Arithmetic wraps around, division truncates toward zero and is undefined for a zero
divisor, and a shift takes its amount modulo sixty-four.

## Main definitions

* `Word`, `BinaryOp`, `BinaryOp.eval`, `CompareOp`, `CompareOp.eval`, `UnaryOp`, `UnaryOp.eval`,
  `Word.bitTest`.
-/

namespace Firestorm

/-- A word of sixty-four bits in two's complement. -/
abbrev Word := Int64

/-- The operators that combine two words into a word. -/
inductive BinaryOp
  | add
  | sub
  | mul
  | div
  | mod
  | and
  | or
  | xor
  | shiftLeft
  | shiftRight
deriving Repr, DecidableEq, Inhabited

/-- The operators that compare two words as signed numbers. -/
inductive CompareOp
  | equals
  | notEquals
  | less
  | lessEquals
  | greater
  | greaterEquals
deriving Repr, DecidableEq, Inhabited

/-- The operators of one operand, logical negation apart. -/
inductive UnaryOp
  | plus
  | minus
  | bitNot
deriving Repr, DecidableEq, Inhabited

namespace BinaryOp

/-- The value of an operator. Division and remainder have none when the divisor is zero. -/
def eval (op : BinaryOp) (a b : Word) : Option Word :=
  match op with
  | add => some (a + b)
  | sub => some (a - b)
  | mul => some (a * b)
  | div => if b = 0 then none else some (a / b)
  | mod => if b = 0 then none else some (a % b)
  | and => some (a &&& b)
  | or => some (a ||| b)
  | xor => some (a ^^^ b)
  | shiftLeft => some (a <<< b)
  | shiftRight => some (a >>> b)

end BinaryOp

namespace CompareOp

/-- Whether two words stand in the relation. -/
def eval (op : CompareOp) (a b : Word) : Bool :=
  match op with
  | equals => a == b
  | notEquals => a != b
  | less => a < b
  | lessEquals => a ≤ b
  | greater => a > b
  | greaterEquals => a ≥ b

end CompareOp

namespace UnaryOp

/-- The value of an operator of one operand. -/
def eval (op : UnaryOp) (a : Word) : Word :=
  match op with
  | plus => a
  | minus => -a
  | bitNot => ~~~a

end UnaryOp

namespace Word

/-- The word of a truth value. -/
def ofBool (b : Bool) : Word :=
  if b then 1 else 0

/-- The bit of `value` with the given index, taken modulo sixty-four, at its own place. -/
def bitTest (value index : Word) : Word :=
  value &&& (1 <<< index)

end Word

end Firestorm
