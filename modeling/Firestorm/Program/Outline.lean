import Firestorm.Outline
import Firestorm.Program
import Firestorm.Text.Quoted

/-!
# Outlines of programs

## Main definitions

* `Expr.outline`, `Stmt.outline`, `Program.outline`.
-/

namespace Firestorm

open Outline (atom record variant list)

/-- A name. -/
def nameOutline (name : String) : Outline :=
  variant "Identifier" [atom (Text.quote name)]

/-- A value that may be missing. -/
def optionOutline : Option Outline → Outline
  | none => atom "None"
  | some o => variant "Some" [o]

/-- A truth value. -/
def boolOutline (b : Bool) : Outline :=
  atom (if b then "true" else "false")

/-- The outline of a kind. -/
def Kind.outline : Kind → Outline
  | int => atom "Int"
  | str => atom "Str"
  | chr => atom "Chr"

/-- The outline of a datatype. -/
def Datatype.outline (d : Datatype) : Outline :=
  record "Datatype" [("kind", d.kind.outline), ("array", boolOutline d.array)]

/-- The outline of a name with its datatype. -/
def Binding.outline (b : Binding) : Outline :=
  record "NamedDatatype" [("name", nameOutline b.name), ("datatype", b.datatype.outline)]

/-- The outline of a constant. -/
def Literal.outline : Literal → Outline
  | number value => variant "Number" [atom (toString value.toInt)]
  | str content => variant "Str" [atom (Text.quote content)]
  | chr byte => variant "Chr" [atom (toString byte.toNat)]

/-- The outline of an arithmetic operator. -/
def BinaryOp.outline : BinaryOp → Outline
  | add => atom "Add"
  | sub => atom "Sub"
  | mul => atom "Mul"
  | div => atom "Div"
  | mod => atom "Mod"
  | and => atom "And"
  | or => atom "Or"
  | xor => atom "Xor"
  | shiftLeft => atom "ShiftLeft"
  | shiftRight => atom "ShiftRight"

/-- The outline of a comparison. -/
def CompareOp.outline : CompareOp → Outline
  | equals => atom "Equals"
  | notEquals => atom "NotEquals"
  | less => atom "Less"
  | lessEquals => atom "LessEquals"
  | greater => atom "Greater"
  | greaterEquals => atom "GreaterEquals"

/-- The outline of an operator with one operand. -/
def UnaryOp.outline : UnaryOp → Outline
  | plus => atom "Plus"
  | minus => atom "Minus"
  | bitNot => atom "BitNot"

mutual

/-- The outline of an expression. -/
def Expr.outline : Expr → Outline
  | .literal value => variant "Literal" [value.outline]
  | .lookup name => variant "Lookup" [nameOutline name]
  | .index name i => record "Index" [("var", nameOutline name), ("index", i.outline)]
  | .call callee arguments =>
    variant "Call" [record "Call" [("callee", nameOutline callee),
      ("arguments", list (Expr.outlines arguments))]]
  | .binary op left right => variant "Binary" [op.outline, left.outline, right.outline]
  | .compare op left right => variant "Compare" [op.outline, left.outline, right.outline]
  | .unary op operand => variant "Unary" [op.outline, operand.outline]
  | .not operand => variant "Not" [operand.outline]

/-- The outlines of expressions. -/
def Expr.outlines : List Expr → List Outline
  | [] => []
  | e :: rest => e.outline :: Expr.outlines rest

end

/-- The outline of a conditional statement. -/
def conditionalOutline (condition : Expr) (body : List Outline)
    (otherwise : Option (List Outline)) : Outline :=
  variant "If" [record "Conditional" [("condition", condition.outline), ("then", list body),
    ("otherwise", optionOutline (otherwise.map list))]]

mutual

/-- The outline of a statement. -/
def Stmt.outline : Stmt → Outline
  | .declare b init => record "Declare" [("var", b.outline),
      ("init", optionOutline (init.map Expr.outline))]
  | .assign target value =>
    record "Assign" [("target", nameOutline target), ("value", value.outline)]
  | .assignIndexed target index value =>
    record "AssignIndexed" [("target", nameOutline target), ("index", index.outline),
      ("value", value.outline)]
  | .increment target => variant "Increment" [nameOutline target]
  | .decrement target => variant "Decrement" [nameOutline target]
  | .return_ value => variant "Return" [optionOutline (value.map Expr.outline)]
  | .ifThen condition body => conditionalOutline condition (Stmt.outlines body) none
  | .ifElse condition body alternative =>
    conditionalOutline condition (Stmt.outlines body) (some (Stmt.outlines alternative))
  | .while_ condition body =>
    record "While" [("condition", condition.outline), ("body", list (Stmt.outlines body))]
  | .doWhile body condition =>
    record "DoWhile" [("body", list (Stmt.outlines body)), ("condition", condition.outline)]
  | .loop body => variant "Loop" [list (Stmt.outlines body)]
  | .expr e => variant "Expr" [e.outline]

/-- The outlines of statements. -/
def Stmt.outlines : List Stmt → List Outline
  | [] => []
  | s :: rest => s.outline :: Stmt.outlines rest

end

/-- The outline of attributes: the names of those that are set. -/
def Attributes.outline (a : Attributes) : Outline :=
  let names := [(a.assembly, "ASSEMBLY"), (a.noreturn, "NORETURN"), (a.global, "GLOBAL"),
    (a.keep, "KEEP")]
  match names.filterMap fun (given, name) => if given then some name else none with
  | [] => atom "(empty)"
  | set => atom (String.intercalate " | " set)

/-- The outline of the body of a function. -/
def Body.outline : Body → Outline
  | statements body => variant "Statements" [list (Stmt.outlines body)]
  | assembly code => variant "Assembly" [atom (Text.quote code)]

/-- The outline of a function. -/
def FunctionDef.outline (f : FunctionDef) : Outline :=
  record "Function" [("name", nameOutline f.name), ("attributes", f.attributes.outline),
    ("parameters", list (f.parameters.map Binding.outline)), ("returns", f.returns.outline),
    ("body", f.body.outline)]

/-- The outline of a global. -/
def GlobalDef.outline (g : GlobalDef) : Outline :=
  record "GlobalDeclaration" [("var", g.binding.outline),
    ("init", optionOutline (g.init.map Literal.outline))]

/-- The outline of an item. -/
def Item.outline : Item → Outline
  | global g => variant "Global" [g.outline]
  | function f => variant "Function" [f.outline]

/-- The outline of a program. -/
def Program.outline (p : Program) : Outline :=
  record "Ast" [("items", list (p.items.map Item.outline))]

end Firestorm
