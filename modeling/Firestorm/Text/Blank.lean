/-!
# Blank characters

The characters that separate lexemes and that trimming removes: the code points with the Unicode
property `White_Space`. There are twenty-five of them, all in the basic plane.

## Main definitions

* `Text.isBlank`, `Text.trimStart`, `Text.trimEnd`, `Text.trim`.
-/

namespace Firestorm.Text

/-- A character is blank when it has the Unicode property `White_Space`. -/
def isBlank (c : Char) : Bool :=
  let n := c.toNat
  (9 ≤ n && n ≤ 13) || n == 0x20 || n == 0x85 || n == 0xA0 || n == 0x1680 ||
    (0x2000 ≤ n && n ≤ 0x200A) || n == 0x2028 || n == 0x2029 || n == 0x202F || n == 0x205F ||
    n == 0x3000

/-- The text after its leading blanks. -/
def trimStart (cs : List Char) : List Char :=
  cs.dropWhile isBlank

/-- The text before its trailing blanks. -/
def trimEnd (cs : List Char) : List Char :=
  (trimStart cs.reverse).reverse

/-- The text between its outer blanks. -/
def trim (cs : List Char) : List Char :=
  trimEnd (trimStart cs)

end Firestorm.Text
