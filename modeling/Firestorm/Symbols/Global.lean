import Firestorm.Program
import Firestorm.Symbols.Error
import Firestorm.Symbols.Table

/-!
# Global variables

A global variable may be defined several times, always with the same datatype. An array cannot have
an initial value.

## Main definitions

* `GlobalTable`, `GlobalTable.ofProgram`, `globalLabel`.
-/

namespace Firestorm

/-- The datatypes of the globals of a program. -/
abbrev GlobalTable := Table Datatype

/-- The label of a global in the data of a compiled program. -/
def globalLabel (name : String) : String :=
  "__global_" ++ name

/-- Arrays have no initial value. -/
def GlobalDef.check (g : GlobalDef) : Except SymbolError Unit :=
  if g.binding.datatype.array && g.init.isSome then .error (.globalArrayInit g.binding.name)
  else .ok ()

namespace GlobalTable

/-- The table with one more definition. -/
def define (t : GlobalTable) (g : GlobalDef) : Except SymbolError GlobalTable := do
  g.check
  match t.get? g.binding.name with
  | none => return t.set g.binding.name g.binding.datatype
  | some d =>
    if d = g.binding.datatype then return t else throw (.redefined g.binding.name)

/-- The table of a program. -/
def ofProgram (p : Program) : Except SymbolError GlobalTable :=
  p.globals.foldlM define ∅

end GlobalTable

end Firestorm
