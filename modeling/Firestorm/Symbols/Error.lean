/-!
# Errors in the use of names

## Main definitions

* `SymbolError`, `SymbolError.message`.
-/

namespace Firestorm

/-- What is wrong with a name. -/
inductive SymbolError
  | undefined (name : String)
  | undefinedFunction (name : String)
  | arity (callee : String) (expected found : Nat)
  | redefined (name : String)
  | duplicateFunction (name : String)
  | globalArrayInit (name : String)
deriving Repr, DecidableEq, Inhabited

/-- The wording of an error. -/
def SymbolError.message : SymbolError → String
  | undefined name => s!"Symbol `{name}` is undefined"
  | undefinedFunction name => s!"Function `{name}` is undefined"
  | arity callee expected found =>
    s!"Function `{callee}` takes {expected} arguments, but {found} were supplied"
  | redefined name => s!"`{name}` is already defined with a different datatype"
  | duplicateFunction name => s!"Function `{name}` is defined more than once"
  | globalArrayInit name => s!"Global array initializers are not supported (`{name}`)"

end Firestorm
