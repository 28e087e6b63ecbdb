import Firestorm.Symbols.Error

/-!
# Errors of the code generators

## Main definitions

* `CompileError`, `CompileError.message`.
-/

namespace Firestorm

/-- Why a program cannot be compiled: a wrong use of names, an assignment to a bit of a scalar, a
character global that starts as a string, or an expression that needs more registers than there
are. -/
inductive CompileError
  | symbol (error : SymbolError)
  | bitAssignment
  | chrFromString
  | registersExhausted (available : Nat)
deriving Repr, DecidableEq, Inhabited

/-- The wording of an error. -/
def CompileError.message : CompileError → String
  | symbol error => error.message
  | bitAssignment => "assignment to a bit index is not supported"
  | chrFromString => "string initializer for a chr global is not supported"
  | registersExhausted available =>
    s!"Expression is too deep for the {available} available registers"

end Firestorm
