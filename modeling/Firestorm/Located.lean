/-!
# Values with a place in the source

Tokens and errors are tied to the source text by the byte offset at which they stand in its UTF-8
form.

## Main definitions

* `Located`.
-/

namespace Firestorm

/-- A value that stands at a byte offset of the source text. -/
structure Located (α : Type) where
  offset : Nat
  value : α
deriving Repr, DecidableEq, Inhabited

end Firestorm
