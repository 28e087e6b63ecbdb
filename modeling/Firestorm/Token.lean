import Firestorm.Located
import Firestorm.Text.Quoted
import Firestorm.Word

/-!
# Tokens

The lexical units of a program: words that are keywords or identifiers, the three kinds of literal,
and operators and punctuation.

## Main definitions

* `Keyword`, `Keyword.spelling`, `Keyword.ofSpelling?`, `Token`, `Token.symbol?`, `Token.describe`,
  `Token.outline`.
-/

namespace Firestorm

/-- The reserved words. -/
inductive Keyword
  | function
  | return_
  | if_
  | else_
  | while_
  | do_
  | for_
  | loop
  | int
  | str
  | chr
deriving Repr, DecidableEq, Inhabited

namespace Keyword

/-- All reserved words. -/
def all : List Keyword :=
  [function, return_, if_, else_, while_, do_, for_, loop, int, str, chr]

/-- The text of a reserved word. -/
def spelling : Keyword → String
  | function => "function"
  | return_ => "return"
  | if_ => "if"
  | else_ => "else"
  | while_ => "while"
  | do_ => "do"
  | for_ => "for"
  | loop => "loop"
  | int => "int"
  | str => "str"
  | chr => "chr"

/-- The name under which a dump shows a reserved word. -/
def title : Keyword → String
  | function => "Function"
  | return_ => "Return"
  | if_ => "If"
  | else_ => "Else"
  | while_ => "While"
  | do_ => "Do"
  | for_ => "For"
  | loop => "Loop"
  | int => "Int"
  | str => "Str"
  | chr => "Chr"

/-- The reserved word with the given text. -/
def ofSpelling? (text : String) : Option Keyword :=
  all.find? (·.spelling == text)

theorem ofSpelling?_spelling (k : Keyword) : ofSpelling? k.spelling = some k := by
  cases k <;> decide

end Keyword

/-- A lexical unit of a program. -/
inductive Token
  | id (name : String)
  | keyword (word : Keyword)
  | int (value : Word)
  | str (content : String)
  | chr (byte : UInt8)
  | assign
  | equals
  | notEquals
  | less
  | lessEquals
  | greater
  | greaterEquals
  | not
  | bitNot
  | bitAnd
  | bitOr
  | bitXor
  | shiftLeft
  | shiftRight
  | plus
  | minus
  | times
  | divide
  | modulo
  | increment
  | decrement
  | arrow
  | comma
  | semicolon
  | openParen
  | closeParen
  | openCurly
  | closeCurly
  | openSquare
  | closeSquare
deriving Repr, DecidableEq, Inhabited

namespace Token

/-- The spelling of an operator or a punctuation mark; words and literals have none. -/
def symbol? : Token → Option String
  | id _ | keyword _ | int _ | str _ | chr _ => none
  | assign => some "="
  | equals => some "=="
  | notEquals => some "!="
  | less => some "<"
  | lessEquals => some "<="
  | greater => some ">"
  | greaterEquals => some ">="
  | not => some "!"
  | bitNot => some "~"
  | bitAnd => some "&"
  | bitOr => some "|"
  | bitXor => some "^"
  | shiftLeft => some "<<"
  | shiftRight => some ">>"
  | plus => some "+"
  | minus => some "-"
  | times => some "*"
  | divide => some "/"
  | modulo => some "%"
  | increment => some "++"
  | decrement => some "--"
  | arrow => some "->"
  | comma => some ","
  | semicolon => some ";"
  | openParen => some "("
  | closeParen => some ")"
  | openCurly => some "\x7b"
  | closeCurly => some "\x7d"
  | openSquare => some "["
  | closeSquare => some "]"

/-- The name of the kind of a token. -/
def kind : Token → String
  | id _ => "Id"
  | keyword _ => "Keyword"
  | int _ => "IntLiteral"
  | str _ => "StrLiteral"
  | chr _ => "ChrLiteral"
  | assign => "Assign"
  | equals => "Equals"
  | notEquals => "NotEquals"
  | less => "Less"
  | lessEquals => "LessEquals"
  | greater => "Greater"
  | greaterEquals => "GreaterEquals"
  | not => "Not"
  | bitNot => "BitNot"
  | bitAnd => "BitAnd"
  | bitOr => "BitOr"
  | bitXor => "BitXor"
  | shiftLeft => "ShiftLeft"
  | shiftRight => "ShiftRight"
  | plus => "Plus"
  | minus => "Minus"
  | times => "Times"
  | divide => "Divide"
  | modulo => "Modulo"
  | increment => "Increment"
  | decrement => "Decrement"
  | arrow => "Arrow"
  | comma => "Comma"
  | semicolon => "Semicolon"
  | openParen => "OpenParen"
  | closeParen => "CloseParen"
  | openCurly => "OpenCurly"
  | closeCurly => "CloseCurly"
  | openSquare => "OpenSquare"
  | closeSquare => "CloseSquare"

/-- How messages name a token. -/
def describe (t : Token) : String :=
  match t with
  | id name => s!"identifier `{name}`"
  | keyword word => s!"keyword `{word.spelling}`"
  | int value => s!"literal `{value.toInt}`"
  | str content => s!"literal {Text.quote content}"
  | chr byte => s!"literal {Text.quoteChar (Char.ofNat byte.toNat)}"
  | _ => s!"`{t.symbol?.getD t.kind}`"

/-- How a dump shows a token. -/
def outline (t : Token) : String :=
  match t with
  | id name => s!"Id(Identifier({Text.quote name}))"
  | keyword word => s!"Keyword({word.title})"
  | int value => s!"IntLiteral({value.toInt})"
  | str content => s!"StrLiteral({Text.quote content})"
  | chr byte => s!"ChrLiteral({byte.toNat})"
  | _ => t.kind

end Token

/-- The line of a token dump for a token at its place. -/
def Located.outline (t : Located Token) : String :=
  s!"Located \x7b offset: {t.offset}, value: {t.value.outline} \x7d"

end Firestorm
