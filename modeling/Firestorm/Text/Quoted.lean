import Firestorm.Text.Printable

/-!
# Quoted characters and texts

The form in which messages and dumps show a character or a text: between two quotation marks, with
the mark itself, the backslash, tab, carriage return, newline and NUL behind a backslash, and with
every other unprintable character written as its code point in hexadecimal.

## Main definitions

* `Text.escape`, `Text.quote`, `Text.quoteChar`.
-/

namespace Firestorm.Text

/-- How a character is written inside a text that `mark` delimits. -/
def escape (mark c : Char) : List Char :=
  if c = '\t' then ['\\', 't']
  else if c = '\r' then ['\\', 'r']
  else if c = '\n' then ['\\', 'n']
  else if c = '\x00' then ['\\', '0']
  else if c = '\\' then ['\\', '\\']
  else if c = mark then ['\\', c]
  else if isPrintable c then [c]
  else ['\\', 'u', '\x7b'] ++ Nat.toDigits 16 c.toNat ++ ['\x7d']

/-- A text between double quotation marks. -/
def quote (text : String) : String :=
  String.ofList ('"' :: text.toList.flatMap (escape '"') ++ ['"'])

/-- A character between single quotation marks. -/
def quoteChar (c : Char) : String :=
  String.ofList ('\'' :: escape '\'' c ++ ['\''])

end Firestorm.Text
