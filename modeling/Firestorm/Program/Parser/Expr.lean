import Firestorm.Program
import Firestorm.Program.Parser.Basic

/-!
# Parsing expressions

Operators bind from loosest to tightest: comparisons, sums, products, bitwise operators and shifts,
then the operators of one operand. Within a level they associate to the left. Logical negation takes
a whole comparison as its operand.

The levels are functions of the parser for a nested expression. The knot is tied in `exprWithin`,
whose depth bound every nesting lowers by one; since a nested expression stands behind a token of
its own, a bound above the number of tokens is never reached.

## Main definitions

* `Parser.primary`, `Parser.unary`, `Parser.bitwise`, `Parser.product`, `Parser.sum`,
  `Parser.comparison`, `Parser.expr`.
-/

namespace Firestorm

namespace Parser

/-- The comparison operators. -/
def compareOp? : Token → Option CompareOp
  | .equals => some .equals
  | .notEquals => some .notEquals
  | .less => some .less
  | .lessEquals => some .lessEquals
  | .greater => some .greater
  | .greaterEquals => some .greaterEquals
  | _ => none

/-- The operators of a sum. -/
def sumOp? : Token → Option BinaryOp
  | .plus => some .add
  | .minus => some .sub
  | _ => none

/-- The operators of a product. -/
def productOp? : Token → Option BinaryOp
  | .times => some .mul
  | .divide => some .div
  | .modulo => some .mod
  | _ => none

/-- The bitwise operators and shifts. -/
def bitwiseOp? : Token → Option BinaryOp
  | .bitAnd => some .and
  | .bitOr => some .or
  | .bitXor => some .xor
  | .shiftLeft => some .shiftLeft
  | .shiftRight => some .shiftRight
  | _ => none

/-- The operators in front of an operand; logical negation is `none`. -/
def unaryOp? : Token → Option (Option UnaryOp)
  | .not => some none
  | .bitNot => some (some .bitNot)
  | .plus => some (some .plus)
  | .minus => some (some .minus)
  | _ => none

section

variable (expr : Parser Expr)

/-- A literal, a parenthesised expression, a variable, an indexed variable or a call. -/
def primary : Parser Expr := do
  match ← next with
  | .int value => return .literal (.number value)
  | .str content => return .literal (.str content)
  | .chr byte => return .literal (.chr byte)
  | .openParen =>
    let e ← harden expr
    expect .closeParen
    return e
  | .id name =>
    match ← peek? with
    | some .openParen =>
      expect .openParen
      let arguments ← commaSeparated expr
      expect .closeParen
      return .call name arguments
    | some .openSquare =>
      expect .openSquare
      let index ← harden expr
      expect .closeSquare
      return .index name index
    | _ => return .lookup name
  | _ => soften (fail .expectedExpr)

/-- A primary expression behind at most the given number of operators. -/
def unaryWithin : Nat → Parser Expr
  | 0 => primary expr
  | n + 1 => fun c => (do
    match ← accept unaryOp? with
    | some none => return .not (← harden expr)
    | some (some op) => return .unary op (← harden (unaryWithin n))
    | none => primary expr : Parser Expr) c

/-- A primary expression behind any number of operators. -/
def unary : Parser Expr :=
  rounds (unaryWithin expr)

/-- Operands joined by bitwise operators and shifts. -/
def bitwise : Parser Expr :=
  chain (fun t => (bitwiseOp? t).map .binary) (unary expr)

/-- A product. -/
def product : Parser Expr :=
  chain (fun t => (productOp? t).map .binary) (bitwise expr)

/-- A sum. -/
def sum : Parser Expr :=
  chain (fun t => (sumOp? t).map .binary) (product expr)

/-- A comparison. -/
def comparison : Parser Expr :=
  chain (fun t => (compareOp? t).map .compare) (sum expr)

end

/-- An expression in which expressions nest less deep than the bound. -/
def exprWithin : Nat → Parser Expr
  | 0 => fail .unexpectedEnd
  | n + 1 => fun c => comparison (exprWithin n) c

/-- An expression. -/
def expr : Parser Expr :=
  rounds exprWithin

end Parser

end Firestorm
