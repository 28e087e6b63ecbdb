/-!
# Texts without regard to case

Only the letters of ASCII have a case here.

## Main definitions

* `Text.caseless`.
-/

namespace Firestorm.Text

/-- Whether two texts differ at most in the case of their letters. -/
def caseless (a b : String) : Bool :=
  a.toList.map Char.toLower == b.toList.map Char.toLower

end Firestorm.Text
