import Firestorm.Datatype
import Firestorm.Word

/-!
# Programs

The tree of a program: global variables with literal initial values, and functions whose body is a
list of statements or a text in the language of the target machine.

## Main definitions

* `Literal`, `Expr`, `Stmt`, `Attributes`, `FunctionDef`, `GlobalDef`, `Item`, `Program`.
-/

namespace Firestorm

/-- A constant. -/
inductive Literal
  | number (value : Word)
  | str (content : String)
  | chr (byte : UInt8)
deriving Repr, DecidableEq, Inhabited

/-- The datatype of a constant. -/
def Literal.datatype : Literal → Datatype
  | number _ => .int
  | str _ => .str
  | chr _ => .chr

/-- An expression. `index` reads an element of an array, or a bit of a scalar. -/
inductive Expr
  | literal (value : Literal)
  | lookup (name : String)
  | index (name : String) (index : Expr)
  | call (callee : String) (arguments : List Expr)
  | binary (op : BinaryOp) (left right : Expr)
  | compare (op : CompareOp) (left right : Expr)
  | unary (op : UnaryOp) (operand : Expr)
  | not (operand : Expr)
deriving Repr, Inhabited, BEq

/-- A statement. -/
inductive Stmt
  | declare (binding : Binding) (init : Option Expr)
  | assign (target : String) (value : Expr)
  | assignIndexed (target : String) (index value : Expr)
  | increment (target : String)
  | decrement (target : String)
  | return_ (value : Option Expr)
  | ifThen (condition : Expr) (body : List Stmt)
  | ifElse (condition : Expr) (body otherwise : List Stmt)
  | while_ (condition : Expr) (body : List Stmt)
  | doWhile (body : List Stmt) (condition : Expr)
  | loop (body : List Stmt)
  | expr (value : Expr)
deriving Repr, Inhabited, BEq

/-- What the header of a function says about it: that its body is text for the target machine, that
control never reaches its end, that its symbol is exported, and that it is kept even if nothing
calls it. -/
structure Attributes where
  assembly : Bool := false
  noreturn : Bool := false
  global : Bool := false
  keep : Bool := false
deriving Repr, DecidableEq, Inhabited

namespace Attributes

/-- The attributes that two headers have together. -/
def union (a b : Attributes) : Attributes :=
  ⟨a.assembly || b.assembly, a.noreturn || b.noreturn, a.global || b.global, a.keep || b.keep⟩

/-- The attribute with the given name. -/
def ofName? : String → Option Attributes
  | "assembly" => some { assembly := true }
  | "noreturn" => some { noreturn := true }
  | "global" => some { global := true }
  | "keep" => some { keep := true }
  | _ => none

/-- The attributes as a number, one bit each. -/
def bits (a : Attributes) : Nat :=
  a.assembly.toNat + 2 * a.noreturn.toNat + 4 * a.global.toNat + 8 * a.keep.toNat

end Attributes

/-- The body of a function. -/
inductive Body
  | statements (body : List Stmt)
  | assembly (text : String)
deriving Repr, Inhabited, BEq

/-- The definition of a function. -/
structure FunctionDef where
  name : String
  attributes : Attributes
  parameters : List Binding
  returns : Datatype
  body : Body
deriving Repr, Inhabited, BEq

/-- The definition of a global variable. -/
structure GlobalDef where
  binding : Binding
  init : Option Literal
deriving Repr, DecidableEq, Inhabited

/-- A definition. -/
inductive Item
  | global (definition : GlobalDef)
  | function (definition : FunctionDef)
deriving Repr, Inhabited, BEq

/-- A program is the list of its definitions. -/
structure Program where
  items : List Item
deriving Repr, Inhabited, BEq

namespace Program

/-- The name of the function that a run starts with. -/
def entryPoint : String := "spark"

/-- The name of the function that is called where control must not come. -/
def unreachable : String := "unreachable"

/-- The global variables in the order of their definition. -/
def globals (p : Program) : List GlobalDef :=
  p.items.filterMap fun
    | .global g => some g
    | .function _ => none

/-- The functions in the order of their definition. -/
def functions (p : Program) : List FunctionDef :=
  p.items.filterMap fun
    | .function f => some f
    | .global _ => none

/-- The first function with the given name. -/
def function? (p : Program) (name : String) : Option FunctionDef :=
  p.functions.find? (·.name == name)

end Program

end Firestorm
