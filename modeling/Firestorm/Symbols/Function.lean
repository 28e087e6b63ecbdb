import Firestorm.Program
import Firestorm.Symbols.Error
import Firestorm.Symbols.Table

/-!
# Functions by name

## Main definitions

* `FunctionTable`, `FunctionTable.ofProgram`, `FunctionTable.resolve`.
-/

namespace Firestorm

/-- The functions of a program by name. -/
abbrev FunctionTable := Table FunctionDef

namespace FunctionTable

/-- The table with one more function. -/
def define (t : FunctionTable) (f : FunctionDef) : Except SymbolError FunctionTable :=
  match t.get? f.name with
  | none => .ok (t.set f.name f)
  | some _ => .error (.duplicateFunction f.name)

/-- The table of a program. -/
def ofProgram (p : Program) : Except SymbolError FunctionTable :=
  p.functions.foldlM define ∅

/-- The function that a call with the given number of arguments means. -/
def resolve (t : FunctionTable) (callee : String) (arguments : Nat) :
    Except SymbolError FunctionDef :=
  match t.get? callee with
  | none => .error (.undefinedFunction callee)
  | some f =>
    if f.parameters.length = arguments then .ok f
    else .error (.arity callee f.parameters.length arguments)

end FunctionTable

end Firestorm
