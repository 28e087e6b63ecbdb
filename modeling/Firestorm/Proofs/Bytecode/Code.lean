import Firestorm.Bytecode.Emit
import Firestorm.Proofs.Program.Parts
import Firestorm.Proofs.Symbols.Tables

/-!
# The code of a program

The generation of code carries the next free label, the locals declared so far and the functions
called so far. This file gives the code as a function of the program and the first label alone, and
says when generation succeeds with it: whenever every name that the code mentions is in scope.

Everything else that is said about the code follows from these functions by recursion on the
program.

## Main definitions

* `Bytecode.exprCode`, `Bytecode.stmtCode`, `Bytecode.blockCode`, `Bytecode.functionCode`,
  `Bytecode.stmtScope`, `Bytecode.blockScope`, `Bytecode.ExprScoped`, `Bytecode.StmtScoped`,
  `Bytecode.BlockScoped`.
* `Bytecode.invokes`: the functions that code invokes.
-/

namespace Firestorm.Bytecode

open Fallible

/-- Whether a call of a function leaves the stack machine for a native function. -/
def isNative (F : FunctionTable) (callee : String) : Bool :=
  (F.get? callee).any (·.attributes.assembly)

/-- The line of a call. -/
def callLine (F : FunctionTable) (callee : String) : CodeLine :=
  .instruction (if isNative F callee then .invokeNative callee else .invoke callee)

/-- The line that places a numbered label. -/
def numbered (n : Nat) : CodeLine := .label (toString n)

/-- The line of a jump to a numbered label. -/
def jumpTo (kind : JumpKind) (n : Nat) : CodeLine := jump kind (toString n)

section

variable (F : FunctionTable)

mutual

/-- The code of an expression. -/
def exprCode : Expr → List CodeLine
  | .literal value => [literal value]
  | .lookup name => [access .load name]
  | .index name i => exprCode i ++ [access .loadIndexed name]
  | .call callee arguments => argumentsCode arguments ++ [callLine F callee]
  | .binary op left right => exprCode left ++ exprCode right ++ [plain (.binary op)]
  | .compare op left right => exprCode left ++ exprCode right ++ [plain (.compare op)]
  | .unary .plus operand => exprCode operand
  | .unary .minus operand => [number 0] ++ exprCode operand ++ [plain (.binary .sub)]
  | .unary .bitNot operand => exprCode operand ++ [plain .not]
  | .not operand => exprCode operand ++ [plain .invert]

/-- The code of arguments. -/
def argumentsCode : List Expr → List CodeLine
  | [] => []
  | e :: rest => exprCode e ++ argumentsCode rest

end

mutual

/-- The number of labels of a statement. -/
def stmtLabels : Stmt → Nat
  | .ifThen _ body => 1 + blockLabels body
  | .ifElse _ body otherwise => 2 + blockLabels body + blockLabels otherwise
  | .while_ _ body => 2 + blockLabels body
  | .doWhile body _ => 1 + blockLabels body
  | .loop body => 1 + blockLabels body
  | _ => 0

/-- The number of labels of a list of statements. -/
def blockLabels : List Stmt → Nat
  | [] => 0
  | s :: rest => stmtLabels s + blockLabels rest

end

mutual

/-- The code of a statement whose labels are numbered from `n` on. -/
def stmtCode : Stmt → (n : Nat) → List CodeLine
  | .declare b none, _ => [.instruction (.variable_ b)]
  | .declare b (some e), _ =>
    [.instruction (.variable_ b)] ++ exprCode F e ++ [access .assign b.name]
  | .assign target value, _ => exprCode F value ++ [access .assign target]
  | .assignIndexed target i value, _ =>
    exprCode F i ++ exprCode F value ++ [access .assignIndexed target]
  | .increment target, _ => [access .increase target]
  | .decrement target, _ => [access .decrease target]
  | .return_ none, _ => [number 0, plain .return_]
  | .return_ (some e), _ => exprCode F e ++ [plain .return_]
  | .ifThen condition body, n =>
    exprCode F condition ++ [jumpTo .ifFalse n] ++ blockCode body (n + 1) ++ [numbered n]
  | .ifElse condition body otherwise, n =>
    let m := n + 1 + blockLabels body
    exprCode F condition ++ [jumpTo .ifFalse n] ++ blockCode body (n + 1) ++
      [jumpTo .always m, numbered n] ++ blockCode otherwise (m + 1) ++ [numbered m]
  | .while_ condition body, n =>
    [numbered n] ++ exprCode F condition ++ [jumpTo .ifFalse (n + 1)] ++ blockCode body (n + 2) ++
      [jumpTo .always n, numbered (n + 1)]
  | .doWhile body condition, n =>
    [numbered n] ++ blockCode body (n + 1) ++ exprCode F condition ++ [jumpTo .ifTrue n]
  | .loop body, n => [numbered n] ++ blockCode body (n + 1) ++ [jumpTo .always n]
  | .expr e, _ => exprCode F e ++ [plain .delete]

/-- The code of a list of statements whose labels are numbered from `n` on. -/
def blockCode : List Stmt → (n : Nat) → List CodeLine
  | [], _ => []
  | s :: rest, n => stmtCode s n ++ blockCode rest (n + stmtLabels s)

end

/-- The code that takes the arguments from the stack. -/
def parametersCode : List Binding → List CodeLine
  | [] => []
  | b :: rest => [.instruction (.variable_ b), access .assign b.name] ++ parametersCode rest

/-- The code of a function whose labels are numbered from `n` on. -/
def functionCode (f : FunctionDef) (body : List Stmt) (n : Nat) : List CodeLine :=
  (if f.attributes.noreturn then [plain .noreturn] else []) ++
    parametersCode f.parameters.reverse ++ blockCode F body n ++ [number 0, plain .return_]

/-- The section of a function whose labels are numbered from `n` on. -/
def functionSection (f : FunctionDef) (body : List Stmt) (n : Nat) : Section :=
  ⟨.function, f.name, functionCode F f body n⟩

/-- The sections of functions whose labels are numbered from `n` on. -/
def functionSections : (n : Nat) → List FunctionDef → List Section
  | _, [] => []
  | n, f :: rest =>
    match f.body with
    | .assembly _ => functionSections n rest
    | .statements body =>
      functionSection F f body n :: functionSections (n + blockLabels body) rest

end

/-- The lines of an expression itself, not of its parts. -/
def ownLines (F : FunctionTable) : Expr → List CodeLine
  | .literal value => [literal value]
  | .lookup name => [access .load name]
  | .index name _ => [access .loadIndexed name]
  | .call callee _ => [callLine F callee]
  | .binary op _ _ => [plain (.binary op)]
  | .compare op _ _ => [plain (.compare op)]
  | .unary .plus _ => []
  | .unary .minus _ => [number 0, plain (.binary .sub)]
  | .unary .bitNot _ => [plain .not]
  | .not _ => [plain .invert]

section

variable {F : FunctionTable} {line : CodeLine}

attribute [local simp] exprCode argumentsCode ownLines Expr.parts Expr.partsOf

mutual

/-- The lines of the code of an expression are those of its parts. -/
theorem mem_exprCode : ∀ e : Expr, line ∈ exprCode F e ↔ ∃ part ∈ e.parts, line ∈ ownLines F part
  | .literal _ | .lookup _ => by simp
  | .index _ i => by simp [mem_exprCode i, or_comm]
  | .call _ arguments => by simp [mem_argumentsCode arguments, or_comm]
  | .binary _ left right | .compare _ left right => by
    simp [mem_exprCode left, mem_exprCode right, or_and_right, exists_or, or_comm, or_left_comm]
  | .unary op operand => by
    cases op <;> simp [mem_exprCode operand, or_assoc, or_comm]
  | .not operand => by simp [mem_exprCode operand, or_comm]

theorem mem_argumentsCode : ∀ es : List Expr,
    line ∈ argumentsCode F es ↔ ∃ part ∈ Expr.partsOf es, line ∈ ownLines F part
  | [] => by simp
  | e :: es => by simp [mem_exprCode e, mem_argumentsCode es, or_and_right, exists_or]

end

end

/-- The lines of a statement itself that are a declaration or belong to an expression. -/
def stmtLines (F : FunctionTable) (st : Stmt) : List CodeLine :=
  st.binding?.elim [] (fun b => [.instruction (.variable_ b)]) ++ st.operands.flatMap (exprCode F)

/-- The lines that connect the expressions of statements. -/
def connects : CodeLine → Bool
  | .label _ | .instruction (.jump ..) | .instruction (.access ..) | .instruction (.plain _)
  | .instruction (.number _) => true
  | _ => false

section

variable {F : FunctionTable} {line : CodeLine}

theorem ne_of_connects (h : connects line = false) : (∀ name, line ≠ .label name) ∧
    (∀ kind label, line ≠ .instruction (.jump kind label)) ∧
    (∀ a name, line ≠ .instruction (.access a name)) ∧
      (∀ op, line ≠ .instruction (.plain op)) ∧ ∀ value, line ≠ .instruction (.number value) := by
  refine ⟨?_, ?_, ?_, ?_, ?_⟩
  all_goals
    intros
    rintro rfl
    cases h

attribute [local simp] Stmt.parts Stmt.partsOf Stmt.binding? Stmt.operands stmtLines stmtCode
  blockCode access plain number jumpTo jump numbered

mutual

/-- The lines of statements are those of their parts, but for those that connect them. -/
theorem mem_stmtCode (h : connects line = false) : ∀ (st : Stmt) (n : Nat),
    line ∈ stmtCode F st n ↔ ∃ part ∈ st.parts, line ∈ stmtLines F part
  | .declare _ none, _ | .declare _ (some _), _ | .assign .., _ | .assignIndexed ..,
    _ | .increment _, _
  | .decrement _, _ | .return_ none, _ | .return_ (some _), _ | .expr _,
    _ => by simp [ne_of_connects h]
  | .ifThen _ body, n | .while_ _ body, n | .doWhile body _, n | .loop body, n => by
    simp [ne_of_connects h, mem_blockCode h body, or_comm]
  | .ifElse _ body otherwise, n => by
    simp [ne_of_connects h, mem_blockCode h body, mem_blockCode h otherwise, or_and_right,
      exists_or]

theorem mem_blockCode (h : connects line = false) : ∀ (body : List Stmt) (n : Nat),
    line ∈ blockCode F body n ↔ ∃ part ∈ Stmt.partsOf body, line ∈ stmtLines F part
  | [], _ => by simp
  | st :: rest, _ => by simp [mem_stmtCode h st, mem_blockCode h rest, or_and_right, exists_or]

end

theorem exprCode_subset_stmtCode {st : Stmt} {e : Expr} {n : Nat} (he : e ∈ st.operands) :
    exprCode F e ⊆ stmtCode F st n := by
  intro line hline
  cases st with
  | declare b init | return_ init =>
    cases init with
    | none => cases he
    | some e' => simp_all [Stmt.operands, stmtCode]
  | assignIndexed target i value =>
    rcases List.mem_pair.1 he with rfl | rfl <;> simp [stmtCode, hline]
  | _ => simp_all [Stmt.operands, stmtCode]

section

variable {α : Type} {g : CodeLine → Option α} {a : α}

theorem mem_filterMap_exprCode (e : Expr) :
    a ∈ (exprCode F e).filterMap g ↔ ∃ part ∈ e.parts, a ∈ (ownLines F part).filterMap g := by
  simp only [List.mem_filterMap, mem_exprCode]
  constructor
  · rintro ⟨line, ⟨part, hpart, hline⟩, ha⟩
    exact ⟨part, hpart, line, hline, ha⟩
  · rintro ⟨part, hpart, line, hline, ha⟩
    exact ⟨line, ⟨part, hpart, hline⟩, ha⟩

/-- What is read off the lines of statements is read off the lines of their parts, if nothing is
read off the lines that connect them. -/
theorem mem_filterMap_blockCode (hg : ∀ {line a}, g line = some a → connects line = false)
    (body : List Stmt) (n : Nat) :
    a ∈ (blockCode F body n).filterMap g ↔ ∃ st ∈ Stmt.partsOf body,
    a ∈ (stmtLines F st).filterMap g := by
  simp only [List.mem_filterMap]
  constructor
  · rintro ⟨line, hline, ha⟩
    obtain ⟨st, hst, hline⟩ := (mem_blockCode (hg ha) body n).1 hline
    exact ⟨st, hst, line, hline, ha⟩
  · rintro ⟨st, hst, line, hline, ha⟩
    exact ⟨line, (mem_blockCode (hg ha) body n).2 ⟨st, hst, hline⟩, ha⟩

end

end

/-! ### Scopes -/

mutual

/-- The names that are declared behind a statement. -/
def stmtScope (scope : List String) : Stmt → List String
  | .declare b _ => insertName scope b.name
  | .ifThen _ body | .while_ _ body | .doWhile body _ | .loop body => blockScope scope body
  | .ifElse _ body otherwise => blockScope (blockScope scope body) otherwise
  | _ => scope

/-- The names that are declared behind a list of statements. -/
def blockScope (scope : List String) : List Stmt → List String
  | [] => scope
  | s :: rest => blockScope (stmtScope scope s) rest

end

/-- The names that are declared behind a list of parameters. -/
def bindingsScope (scope : List String) : List Binding → List String
  | [] => scope
  | b :: rest => bindingsScope (insertName scope b.name) rest

/-- The names that are declared in a function. -/
def functionScope (f : FunctionDef) (body : List Stmt) : List String :=
  blockScope (bindingsScope [] f.parameters.reverse) body

/-- A variable is declared or a global. -/
def Named (N : Names) (scope : List String) (name : String) : Prop :=
  name ∈ scope ∨ ∃ d, N.globals.get? name = some d

/-- The variable that an expression reads itself is in scope, or the call that it is fits the
function that it calls. -/
def Resolves (N : Names) (scope : List String) : Expr → Prop
  | .lookup name | .index name _ => Named N scope name
  | .call callee arguments =>
    ∃ f, N.functions.get? callee = some f ∧ f.parameters.length = arguments.length
  | _ => True

/-- The variables and the calls of an expression have a meaning. -/
def ExprScoped (N : Names) (scope : List String) (e : Expr) : Prop :=
  ∀ part ∈ e.parts, Resolves N scope part

section

variable {N : Names} {scope : List String}

attribute [local simp] Expr.parts Resolves

@[simp] theorem exprScoped_literal {value : Literal} : ExprScoped N scope (.literal value) := by
  simp [ExprScoped]

@[simp] theorem exprScoped_lookup {name : String} :
    ExprScoped N scope (.lookup name) ↔ Named N scope name := by
  simp [ExprScoped]

@[simp] theorem exprScoped_index {name : String} {i : Expr} :
    ExprScoped N scope (.index name i) ↔ Named N scope name ∧ ExprScoped N scope i := by
  simp [ExprScoped]

@[simp] theorem exprScoped_call {callee : String} {arguments : List Expr} :
    ExprScoped N scope (.call callee arguments) ↔
      (∃ f, N.functions.get? callee = some f ∧ f.parameters.length = arguments.length) ∧
        ∀ e ∈ arguments, ExprScoped N scope e := by
  simp only [ExprScoped, Expr.parts, List.forall_mem_cons, Resolves, Expr.partsOf_eq_flatMap,
    List.mem_flatMap, forall_exists_index, and_imp]
  constructor
  · rintro ⟨h, h'⟩
    exact ⟨h, fun e he part hpart => h' part e he hpart⟩
  · rintro ⟨h, h'⟩
    exact ⟨h, fun part e he hpart => h' e he part hpart⟩

@[simp] theorem exprScoped_binary {op : BinaryOp} {left right : Expr} :
    ExprScoped N scope (.binary op left right) ↔
      ExprScoped N scope left ∧ ExprScoped N scope right := by
  simp [ExprScoped, or_imp, forall_and]

@[simp] theorem exprScoped_compare {op : CompareOp} {left right : Expr} :
    ExprScoped N scope (.compare op left right) ↔
      ExprScoped N scope left ∧ ExprScoped N scope right := by
  simp [ExprScoped, or_imp, forall_and]

@[simp] theorem exprScoped_unary {op : UnaryOp} {operand : Expr} :
    ExprScoped N scope (.unary op operand) ↔ ExprScoped N scope operand := by
  simp [ExprScoped]

@[simp] theorem exprScoped_not {operand : Expr} :
    ExprScoped N scope (.not operand) ↔ ExprScoped N scope operand := by
  simp [ExprScoped]

end

mutual

/-- The names of a statement are in scope. -/
def StmtScoped (N : Names) (scope : List String) : Stmt → Prop
  | .declare b init => ∀ e ∈ init, ExprScoped N (insertName scope b.name) e
  | .assign target value => Named N scope target ∧ ExprScoped N scope value
  | .assignIndexed target i value =>
    Named N scope target ∧ ExprScoped N scope i ∧ ExprScoped N scope value
  | .increment target | .decrement target => Named N scope target
  | .return_ value => ∀ e ∈ value, ExprScoped N scope e
  | .ifThen condition body | .while_ condition body =>
    ExprScoped N scope condition ∧ BlockScoped N scope body
  | .ifElse condition body otherwise =>
    ExprScoped N scope condition ∧ BlockScoped N scope body ∧
      BlockScoped N (blockScope scope body) otherwise
  | .doWhile body condition =>
    BlockScoped N scope body ∧ ExprScoped N (blockScope scope body) condition
  | .loop body => BlockScoped N scope body
  | .expr e => ExprScoped N scope e

/-- The names of a list of statements are in scope. -/
def BlockScoped (N : Names) (scope : List String) : List Stmt → Prop
  | [] => True
  | s :: rest => StmtScoped N scope s ∧ BlockScoped N (stmtScope scope s) rest

end

end Firestorm.Bytecode
