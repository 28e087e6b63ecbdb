import Mathlib.Tactic.Common
import Firestorm.Program

/-!
# The parts of a program

What a program contains: the expressions inside an expression, the statements inside a statement,
and what follows for a function from them. Conditions on programs are stated as conditions on their
parts.

## Main definitions

* `Expr.parts`, `Expr.reads`, `Expr.callees`, `Stmt.parts`, `Stmt.operands`, `Stmt.expressions`,
  `FunctionDef.statements`, `FunctionDef.expressions`, `FunctionDef.callees`, `FunctionDef.locals`.
-/

namespace Firestorm

namespace Expr

mutual

/-- An expression and the expressions inside it. -/
def parts : Expr → List Expr
  | .literal value => [.literal value]
  | .lookup name => [.lookup name]
  | .index name i => .index name i :: parts i
  | .call callee arguments => .call callee arguments :: partsOf arguments
  | .binary op left right => .binary op left right :: (parts left ++ parts right)
  | .compare op left right => .compare op left right :: (parts left ++ parts right)
  | .unary op operand => .unary op operand :: parts operand
  | .not operand => .not operand :: parts operand

/-- The parts of a list of expressions. -/
def partsOf : List Expr → List Expr
  | [] => []
  | e :: es => parts e ++ partsOf es

end

/-- The variable that an expression reads itself, not through its parts. -/
def read? : Expr → Option String
  | .lookup name | .index name _ => some name
  | _ => none

/-- The function that an expression calls itself, not through its parts. -/
def callee? : Expr → Option String
  | .call callee _ => some callee
  | _ => none

/-- The variables that an expression reads. -/
def reads (e : Expr) : List String :=
  e.parts.filterMap read?

/-- The functions that an expression calls. -/
def callees (e : Expr) : List String :=
  e.parts.filterMap callee?

/-- The functions that a list of expressions calls. -/
def calleesOf (es : List Expr) : List String :=
  (partsOf es).filterMap callee?

section

variable {name : String} {i left right operand : Expr}

@[simp] theorem callees_literal (value : Literal) : (Expr.literal value).callees = [] := rfl

@[simp] theorem callees_lookup : (Expr.lookup name).callees = [] := rfl

@[simp] theorem callees_index : (Expr.index name i).callees = i.callees := rfl

@[simp] theorem callees_call (arguments : List Expr) :
    (Expr.call name arguments).callees = name :: calleesOf arguments := rfl

@[simp] theorem callees_binary (op : BinaryOp) :
    (Expr.binary op left right).callees = left.callees ++ right.callees :=
  List.filterMap_append

@[simp] theorem callees_compare (op : CompareOp) :
    (Expr.compare op left right).callees = left.callees ++ right.callees :=
  List.filterMap_append

@[simp] theorem callees_unary (op : UnaryOp) : (Expr.unary op operand).callees = operand.callees :=
  rfl

@[simp] theorem callees_not : (Expr.not operand).callees = operand.callees := rfl

@[simp] theorem calleesOf_nil : calleesOf [] = [] := rfl

@[simp] theorem calleesOf_cons (e : Expr) (es : List Expr) :
    calleesOf (e :: es) = e.callees ++ calleesOf es :=
  List.filterMap_append

end

theorem self_mem_parts (e : Expr) : e ∈ e.parts := by
  cases e <;> simp [parts]

theorem partsOf_eq_flatMap (es : List Expr) : partsOf es = es.flatMap parts := by
  induction es with
  | nil => rfl
  | cons e es ih => rw [partsOf, ih, List.flatMap_cons]

end Expr

namespace Stmt

mutual

/-- A statement and the statements inside it. -/
def parts : Stmt → List Stmt
  | .declare b init => [.declare b init]
  | .assign target value => [.assign target value]
  | .assignIndexed target i value => [.assignIndexed target i value]
  | .increment target => [.increment target]
  | .decrement target => [.decrement target]
  | .return_ value => [.return_ value]
  | .ifThen condition body => .ifThen condition body :: partsOf body
  | .ifElse condition body otherwise =>
    .ifElse condition body otherwise :: (partsOf body ++ partsOf otherwise)
  | .while_ condition body => .while_ condition body :: partsOf body
  | .doWhile body condition => .doWhile body condition :: partsOf body
  | .loop body => .loop body :: partsOf body
  | .expr e => [.expr e]

/-- The parts of a list of statements. -/
def partsOf : List Stmt → List Stmt
  | [] => []
  | s :: rest => parts s ++ partsOf rest

end

/-- The expressions of a statement itself, not of the statements inside it. -/
def operands : Stmt → List Expr
  | .declare _ init => init.toList
  | .assign _ value => [value]
  | .assignIndexed _ i value => [i, value]
  | .increment _ | .decrement _ | .loop _ => []
  | .return_ value => value.toList
  | .ifThen condition _ | .ifElse condition _ _ | .while_ condition _ | .doWhile _ condition =>
    [condition]
  | .expr e => [e]

/-- The variable that a statement assigns to itself. -/
def target? : Stmt → Option String
  | .assign target _ | .assignIndexed target _ _ | .increment target | .decrement target =>
    some target
  | _ => none

/-- The binding that a statement declares itself. -/
def binding? : Stmt → Option Binding
  | .declare b _ => some b
  | _ => none

/-- All expressions inside a list of statements. -/
def expressionsOf (body : List Stmt) : List Expr :=
  (partsOf body).flatMap fun s => s.operands.flatMap Expr.parts

/-- The functions that a statement calls. -/
def callees (s : Stmt) : List String :=
  s.parts.flatMap fun s => s.operands.flatMap Expr.callees

/-- The functions that a list of statements calls. -/
def calleesOf (body : List Stmt) : List String :=
  (partsOf body).flatMap fun s => s.operands.flatMap Expr.callees

@[simp] theorem calleesOf_nil : calleesOf [] = [] := rfl

@[simp] theorem calleesOf_cons (s : Stmt) (body : List Stmt) :
    calleesOf (s :: body) = s.callees ++ calleesOf body :=
  List.flatMap_append

/-- All bindings inside a list of statements. -/
def bindingsOf (body : List Stmt) : List Binding :=
  (partsOf body).filterMap binding?

theorem partsOf_eq_flatMap (body : List Stmt) : partsOf body = body.flatMap parts := by
  induction body with
  | nil => rfl
  | cons s body ih => rw [partsOf, ih, List.flatMap_cons]

@[simp] theorem partsOf_append (body more : List Stmt) :
    partsOf (body ++ more) = partsOf body ++ partsOf more := by
  rw [partsOf_eq_flatMap, partsOf_eq_flatMap, partsOf_eq_flatMap, List.flatMap_append]

theorem self_mem_parts (s : Stmt) : s ∈ s.parts := by
  cases s <;> simp [parts]

end Stmt

/-- The statements of a body; a body of text has none. -/
def Body.block : Body → List Stmt
  | .statements body => body
  | .assembly _ => []

namespace FunctionDef

variable {f : FunctionDef}

/-- The statements of a function and the statements inside them. -/
def statements (f : FunctionDef) : List Stmt :=
  Stmt.partsOf f.body.block

/-- The expressions of a function and the expressions inside them. -/
def expressions (f : FunctionDef) : List Expr :=
  Stmt.expressionsOf f.body.block

/-- The names of the functions that a function calls. -/
def callees (f : FunctionDef) : List String :=
  Stmt.calleesOf f.body.block

/-- The parameters and the local variables of a function. -/
def locals (f : FunctionDef) : List Binding :=
  f.parameters ++ Stmt.bindingsOf f.body.block

/-- Whether the body of a function is a text for the target machine. -/
def IsAssembly (f : FunctionDef) : Prop :=
  ∃ text, f.body = .assembly text

theorem parts_subset_expressions {st : Stmt} {e : Expr} (hst : st ∈ f.statements)
    (he : e ∈ st.operands) : e.parts ⊆ f.expressions := fun _ hpart =>
  List.mem_flatMap.2 ⟨st, hst, List.mem_flatMap.2 ⟨e, he, hpart⟩⟩

theorem mem_callees_of_call {callee : String} {arguments : List Expr}
    (h : .call callee arguments ∈ f.expressions) : callee ∈ f.callees := by
  obtain ⟨st, hst, hpart⟩ := List.mem_flatMap.1 h
  obtain ⟨e, he, hpart⟩ := List.mem_flatMap.1 hpart
  exact List.mem_flatMap.2
    ⟨st, hst, List.mem_flatMap.2 ⟨e, he, List.mem_filterMap.2 ⟨_, hpart, rfl⟩⟩⟩

theorem not_isAssembly_iff : ¬ f.IsAssembly ↔ ∃ body, f.body = .statements body := by
  unfold IsAssembly
  cases f.body <;> simp

end FunctionDef

end Firestorm
