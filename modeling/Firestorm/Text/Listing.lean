import Firestorm.Text.Line

/-!
# Lines of a listing

Instructions are indented by a tab, and their operands start in a column of their own.

## Main definitions

* `Text.padded`, `Text.instructionLine`.
-/

namespace Firestorm.Text

/-- A text with spaces behind it up to the given number of characters. -/
def padded (width : Nat) (text : String) : String :=
  text ++ spaces (width - text.length)

/-- The line of a mnemonic, with its operands in a column of their own if there are any. -/
def instructionLine (mnemonic : String) : (operands : Option String) → String
  | none => "\t" ++ mnemonic
  | some operands => s!"\t{padded 7 mnemonic} {operands}"

end Firestorm.Text
