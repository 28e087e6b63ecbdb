import Firestorm.Program.Parser.Stmt

/-!
# Parsing programs

A program is a list of definitions. One that opens with `function` defines a function, every other a
global variable.

## Main definitions

* `Parser.globalDef`, `Parser.functionDef`, `parse`.
-/

namespace Firestorm

namespace Parser

/-- A constant; a number may have a minus in front of it. -/
def literal : Parser Literal := do
  match ← next with
  | .int value => return .number value
  | .str content => return .str content
  | .chr byte => return .chr byte
  | .minus =>
    match ← next with
    | .int value => return .number (-value)
    | _ => fail .expectedLiteral
  | _ => fail .expectedLiteral

/-- The definition of a global variable. -/
def globalDef : Parser GlobalDef := do
  match ← attempt (soften datatype) with
  | .error _ =>
    discard next
    fail .expectedGlobal
  | .ok d =>
    let name ← identifier
    let init ← if ← acceptToken .assign then some <$> literal else pure none
    expect .semicolon
    return ⟨⟨name, d⟩, init⟩

/-- An attribute of a function. -/
def functionAttribute : Parser Attributes := do
  let name ← soften identifier
  match Attributes.ofName? name with
  | some a => return a
  | none => fail (.unknownAttribute name)

/-- A parameter of a function. -/
def parameter : Parser Binding := do
  let d ← soften datatype
  return ⟨← identifier, d⟩

/-- The attributes between parentheses, which may be missing. -/
def attributeList : Parser Attributes := do
  if ← acceptToken .openParen then
    let all ← commaSeparated functionAttribute
    expect .closeParen
    return all.foldl .union {}
  else return {}

/-- The text of an assembly function. -/
def assemblyText : Parser String := do
  expect .openCurly
  match ← next with
  | .str text =>
    expect .closeCurly
    return text
  | _ => fail .expectedAssembly

/-- The definition of a function. -/
def functionDef : Parser FunctionDef := do
  expect (.keyword .function)
  let attributes ← attributeList
  let name ← identifier
  expect .openParen
  let parameters ← commaSeparated parameter
  expect .closeParen
  expect .arrow
  let returns ← datatype
  let body ← if attributes.assembly then .assembly <$> assemblyText else .statements <$> block
  return { name, attributes, parameters, returns, body }

/-- At most the given number of definitions, up to the end of the tokens. -/
def itemsWithin : Nat → Parser (List Item)
  | 0 => return []
  | n + 1 => do
    match ← peek? with
    | none => return []
    | some (.keyword .function) =>
      let f ← functionDef
      return .function f :: (← itemsWithin n)
    | some _ =>
      let g ← globalDef
      return .global g :: (← itemsWithin n)

end Parser

/-- The program that a list of tokens spells. -/
def parse (tokens : List (Located Token)) : Except (Located ParseError) Program :=
  match Parser.rounds Parser.itemsWithin ⟨0, tokens⟩ with
  | .ok (items, _) => .ok ⟨items⟩
  | .error failure => .error failure.error

end Firestorm
