import Firestorm.Token

/-!
# Parsers over tokens

A parser takes tokens from a cursor and yields a value, or fails. A failure is soft when another
alternative may still be tried and hard when it is final. An alternative is tried with `attempt`,
which leaves the cursor where it was if the alternative fails.

## Main definitions

* `ParseError`, `ParseError.message`, `Parser.Cursor`, `Parser.Failure`, `Parser`, `Parser.next`,
  `Parser.expect`, `Parser.accept`, `Parser.attempt`, `Parser.soften`, `Parser.harden`,
  `Parser.commaSeparated`, `Parser.chain`.
-/

namespace Firestorm

/-- Why a list of tokens is no program. -/
inductive ParseError
  | unexpectedToken (expected found : Token)
  | missingToken (expected : Token)
  | expectedId
  | expectedStatement
  | expectedType
  | expectedExpr
  | expectedLiteral
  | expectedGlobal
  | unknownAttribute (name : String)
  | expectedAssembly
  | unexpectedEnd
deriving Repr, DecidableEq, Inhabited

/-- The wording of an error. -/
def ParseError.message : ParseError → String
  | unexpectedToken expected found =>
    s!"Expected token {expected.describe}, found {found.describe} instead"
  | missingToken expected => s!"Expected token {expected.describe}, none was found instead"
  | expectedId => "Expected identifier"
  | expectedStatement => "Expected a statement"
  | expectedType => "Expected any of `int`, `str`, `chr`"
  | expectedExpr => "Expected an expression"
  | expectedLiteral => "Expected a literal initializer"
  | expectedGlobal => "Expected a global declaration or a function definition"
  | unknownAttribute name => s!"Unknown function attribute `{name}`"
  | expectedAssembly => "Assembly functions must consist of a single string literal"
  | unexpectedEnd => "Abrupt end of program"

namespace Parser

/-- The tokens that are left, and the offset of the last token taken. -/
structure Cursor where
  offset : Nat
  tokens : List (Located Token)
deriving Repr, DecidableEq

/-- A soft failure lets another alternative be tried; a hard one is final. -/
inductive Failure
  | soft (error : Located ParseError)
  | hard (error : Located ParseError)
deriving Repr, DecidableEq

/-- The error of a failure. -/
def Failure.error : Failure → Located ParseError
  | soft error | hard error => error

end Parser

/-- A parser takes tokens from a cursor and yields a value, or fails. -/
abbrev Parser (α : Type) := StateT Parser.Cursor (Except Parser.Failure) α

namespace Parser

variable {α : Type}

/-- Fails for good, at the last token taken. -/
def fail (error : ParseError) : Parser α :=
  fun c => .error (.hard ⟨c.offset, error⟩)

/-- A parser whose failures are soft. -/
def soften (p : Parser α) : Parser α :=
  fun c => (p c).mapError fun f => .soft f.error

/-- A parser whose failures are hard. -/
def harden (p : Parser α) : Parser α :=
  fun c => (p c).mapError fun f => .hard f.error

/-- The outcome of an alternative. If it fails, the cursor stays where it was. -/
def attempt (p : Parser α) : Parser (Except Failure α) :=
  fun c =>
    match p c with
    | .ok (a, c') => .ok (.ok a, c')
    | .error f => .ok (.error f, c)

/-- The next token, which stays. -/
def peek? : Parser (Option Token) :=
  fun c => .ok (c.tokens.head?.map Located.value, c)

/-- Takes the next token. -/
def next : Parser Token :=
  fun c =>
    match c.tokens with
    | [] => fail .unexpectedEnd c
    | t :: rest => .ok (t.value, ⟨t.offset, rest⟩)

/-- Takes the next token if the function has a value for it. -/
def accept (f : Token → Option α) : Parser (Option α) :=
  fun c =>
    match c.tokens with
    | [] => .ok (none, c)
    | t :: rest =>
      match f t.value with
      | none => .ok (none, c)
      | some a => .ok (some a, ⟨t.offset, rest⟩)

/-- Takes the next token if it is the given one, and tells whether it was. -/
def acceptToken (token : Token) : Parser Bool := do
  return (← accept fun t => if t = token then some () else none).isSome

/-- Takes the given token. -/
def expect (token : Token) : Parser Unit :=
  fun c =>
    match c.tokens with
    | [] => fail (.missingToken token) c
    | t :: rest =>
      if t.value = token then .ok ((), ⟨t.offset, rest⟩)
      else fail (.unexpectedToken token t.value) ⟨t.offset, rest⟩

/-- Takes an identifier. -/
def identifier : Parser String := do
  match ← next with
  | .id name => return name
  | _ => fail .expectedId

/-- Runs a loop whose number of rounds is bounded by the number of tokens left: every round but the
last takes a token. -/
def rounds (loop : Nat → Parser α) : Parser α :=
  fun c => loop (c.tokens.length + 1) c

/-- The elements behind a comma each. -/
def afterCommas (element : Parser α) : Nat → Parser (List α)
  | 0 => return []
  | n + 1 => do
    if ← acceptToken .comma then
      let a ← harden element
      return a :: (← afterCommas element n)
    else return []

/-- Elements separated by commas. If the first one fails softly the list is empty. -/
def commaSeparated (element : Parser α) : Parser (List α) := do
  match ← attempt element with
  | .ok a => return a :: (← rounds (afterCommas element))
  | .error (.soft _) => return []
  | .error (.hard e) => fun _ => .error (.hard e)

/-- The rest of a chain of operators behind its left part. -/
def chainFrom (operator : Token → Option (α → α → α)) (operand : Parser α) : Nat → α → Parser α
  | 0, left => return left
  | n + 1, left => do
    match ← accept operator with
    | none => return left
    | some combine =>
      let right ← harden operand
      chainFrom operator operand n (combine left right)

/-- Operands joined by operators, associated to the left. -/
def chain (operator : Token → Option (α → α → α)) (operand : Parser α) : Parser α := do
  let left ← operand
  rounds fun n => chainFrom operator operand n left

end Parser

end Firestorm
