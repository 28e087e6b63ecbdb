import Firestorm.Program.Parser.Expr

/-!
# Parsing statements

A block is a list of statements between braces. A statement that opens with a keyword other than a
datatype has a form of its own; every other statement is a declaration, an assignment, a step or an
expression, and ends with a semicolon. Blocks nest through a depth bound in the same way as
expressions do.

## Main definitions

* `Parser.datatype`, `Parser.simple`, `Parser.statement`, `Parser.block`.
-/

namespace Firestorm

namespace Parser

/-- The kinds that a datatype starts with. -/
def kind? : Token → Option Kind
  | .keyword .int => some .int
  | .keyword .str => some .str
  | .keyword .chr => some .chr
  | _ => none

/-- A kind, with a pair of brackets behind it for an array. -/
def datatype : Parser Datatype := do
  match kind? (← next) with
  | none => fail .expectedType
  | some kind =>
    if ← acceptToken .openSquare then
      expect .closeSquare
      return .arrayOf kind
    else return .scalar kind

/-- The name and the initial value of a local variable, behind its datatype. -/
def declaration (datatype : Datatype) : Parser Stmt := do
  let name ← identifier
  if ← acceptToken .assign then return .declare ⟨name, datatype⟩ (some (← expr))
  else return .declare ⟨name, datatype⟩ none

/-- A variable in front of an equals sign. -/
def assignTarget : Parser String := do
  let name ← identifier
  expect .assign
  return name

/-- An indexed variable in front of an equals sign. -/
def indexedTarget : Parser (String × Expr) := do
  let name ← identifier
  expect .openSquare
  let index ← expr
  expect .closeSquare
  expect .assign
  return (name, index)

/-- A variable in front of a double plus or minus. -/
def stepStatement : Parser Stmt := do
  let name ← identifier
  match ← next with
  | .increment => return .increment name
  | .decrement => return .decrement name
  | _ => fail .expectedStatement

/-- A declaration, an assignment, a step or an expression. -/
def simple : Parser Stmt := do
  if let .ok d ← attempt (soften datatype) then
    declaration d
  else if let .ok target ← attempt assignTarget then
    return .assign target (← harden expr)
  else if let .ok (target, index) ← attempt indexedTarget then
    return .assignIndexed target index (← harden expr)
  else if let .ok step ← attempt stepStatement then
    return step
  else return .expr (← harden expr)

/-- A `return` with or without a value. -/
def returnStatement : Parser Stmt := do
  expect (.keyword .return_)
  let value ← if (← peek?) = some .semicolon then pure none else some <$> harden expr
  expect .semicolon
  return .return_ value

section

variable (block : Parser (List Stmt))

/-- An `if` with at most the given number of `else if` behind it. -/
def conditionalWithin : Nat → Parser Stmt
  | 0 => fail .unexpectedEnd
  | n + 1 => fun c => (do
    expect (.keyword .if_)
    let condition ← harden expr
    let body ← block
    if ← acceptToken (.keyword .else_) then
      if (← peek?) = some (.keyword .if_) then
        return .ifElse condition body [← conditionalWithin n]
      else return .ifElse condition body (← block)
    else return .ifThen condition body : Parser Stmt) c

/-- A `while` loop. -/
def whileStatement : Parser Stmt := do
  expect (.keyword .while_)
  let condition ← harden expr
  return .while_ condition (← block)

/-- A loop whose condition stands behind its body. -/
def doWhileStatement : Parser Stmt := do
  expect (.keyword .do_)
  let body ← block
  expect (.keyword .while_)
  let condition ← harden expr
  expect .semicolon
  return .doWhile body condition

/-- A loop without a condition. -/
def loopStatement : Parser Stmt := do
  expect (.keyword .loop)
  return .loop (← block)

/-- A `for` loop, as its initial statement and a `while_` whose body ends with the update. -/
def forStatement : Parser (List Stmt) := do
  expect (.keyword .for_)
  expect .openParen
  let init ← simple
  expect .semicolon
  let condition ← harden expr
  expect .semicolon
  let update ← simple
  expect .closeParen
  let body ← block
  return [init, .while_ condition (body ++ [update])]

/-- A statement. The brace that closes a block is a soft failure. -/
def statement : Parser (List Stmt) := do
  match ← peek? with
  | none => fail .unexpectedEnd
  | some (.keyword .return_) => return [← returnStatement]
  | some (.keyword .if_) => return [← rounds (conditionalWithin block)]
  | some (.keyword .while_) => return [← whileStatement block]
  | some (.keyword .do_) => return [← doWhileStatement block]
  | some (.keyword .loop) => return [← loopStatement block]
  | some (.keyword .for_) => forStatement block
  | some .closeCurly =>
    discard next
    soften (fail .expectedStatement)
  | some _ =>
    let s ← simple
    expect .semicolon
    return [s]

/-- At most the given number of statements and the brace that closes their block. -/
def statementsWithin : Nat → Parser (List Stmt)
  | 0 => fail .unexpectedEnd
  | n + 1 => fun c => (do
    match ← attempt (statement block) with
    | .ok first => return first ++ (← statementsWithin n)
    | .error (.soft e) =>
      fun c => (expect .closeCurly c).mapError fun _ => .hard e
      return []
    | .error (.hard e) => fun _ => .error (.hard e) : Parser (List Stmt)) c

end

/-- A block in which blocks nest less deep than the bound. -/
def blockWithin : Nat → Parser (List Stmt)
  | 0 => fail .unexpectedEnd
  | n + 1 => fun c => (do
    expect .openCurly
    rounds (statementsWithin (blockWithin n)) : Parser (List Stmt)) c

/-- The statements between braces. -/
def block : Parser (List Stmt) :=
  rounds blockWithin

end Parser

end Firestorm
