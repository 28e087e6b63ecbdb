import Firestorm.Bytecode.Instruction
import Firestorm.CompileError
import Firestorm.Symbols.CallGraph
import Firestorm.Symbols.Function
import Firestorm.Symbols.Global
import Firestorm.Symbols.Slot

/-!
# From programs to bytecode

Operands are pushed from left to right and combined by the instruction behind them. Arguments are
pushed in order and taken from the stack in reverse order by the function that is called. Labels are
numbered through the whole program. Only functions that can be reached are part of the result, and
a section for control that must not come there is added if the program has none.

## Main definitions

* `Bytecode.Emit`, `Bytecode.emitExpr`, `Bytecode.emitStmt`, `Bytecode.emitBlock`,
  `Bytecode.emitFunction`, `Program.toBytecode`.
-/

namespace Firestorm

namespace Bytecode

/-- What is known of the names of a program. -/
structure Names where
  globals : GlobalTable
  functions : FunctionTable

/-- The next free label, the locals declared so far, and the functions called so far. -/
structure EmitState where
  nextLabel : Nat
  layout : FrameLayout
  callees : List String

/-- Code generation for a function. -/
abbrev Emit (α : Type) := StateT EmitState (Except CompileError) α

/-- Fails because of a name. -/
def ofSymbols {α : Type} (x : Except SymbolError α) : Emit α :=
  match x with
  | .ok a => pure a
  | .error e => throw (.symbol e)

/-- A label that has not been used before. The numbers have no bound. A counter of 32 bits gives the
same labels to a program that has at most `2 ^ 32` of them. -/
def freshLabel : Emit String :=
  modifyGet fun s => (toString s.nextLabel, { s with nextLabel := s.nextLabel + 1 })

/-- Notes that a function is called. -/
def noteCallee (name : String) : Emit Unit :=
  modify fun s => { s with callees := name :: s.callees }

/-- Declares a local variable. -/
def declareLocal (b : Binding) : Emit Unit := do
  let (_, layout) ← ofSymbols ((← get).layout.declare b)
  modify fun s => { s with layout }

/-- The datatype of the variable that a name means: a local if there is one, else a global. -/
def variableDatatype (names : Names) (name : String) : Emit Datatype := do
  match (← get).layout.get? name with
  | some slot => return slot.datatype
  | none =>
    match names.globals.get? name with
    | some d => return d
    | none => throw (.symbol (.undefined name))

/-- The line of an instruction without operands. -/
def plain (op : PlainOp) : CodeLine := .instruction (.plain op)

/-- The line of an access to a variable. -/
def access (a : Access) (name : String) : CodeLine := .instruction (.access a name)

/-- The line that pushes a number. -/
def number (value : Word) : CodeLine := .instruction (.number value)

/-- The line of a jump. -/
def jump (kind : JumpKind) (label : String) : CodeLine := .instruction (.jump kind label)

/-- The line that pushes a constant. -/
def literal : Literal → CodeLine
  | .number value => number value
  | .chr byte => number (Int64.ofNat byte.toNat)
  | .str content => .instruction (.string content)

mutual

/-- Code that pushes the value of an expression. -/
def emitExpr (names : Names) : Expr → Emit (List CodeLine)
  | .literal value => return [literal value]
  | .lookup name => do
    discard (variableDatatype names name)
    return [access .load name]
  | .index name index => do
    discard (variableDatatype names name)
    return (← emitExpr names index) ++ [access .loadIndexed name]
  | .call callee arguments => do
    let f ← ofSymbols (names.functions.resolve callee arguments.length)
    let code ← emitArguments names arguments
    if f.attributes.assembly then return code ++ [.instruction (.invokeNative f.name)]
    else
      noteCallee f.name
      return code ++ [.instruction (.invoke f.name)]
  | .binary op left right => do
    let a ← emitExpr names left
    let b ← emitExpr names right
    return a ++ b ++ [plain (.binary op)]
  | .compare op left right => do
    let a ← emitExpr names left
    let b ← emitExpr names right
    return a ++ b ++ [plain (.compare op)]
  | .unary .plus operand => emitExpr names operand
  | .unary .minus operand => do
    let a ← emitExpr names operand
    return [number 0] ++ a ++ [plain (.binary .sub)]
  | .unary .bitNot operand => return (← emitExpr names operand) ++ [plain .not]
  | .not operand => return (← emitExpr names operand) ++ [plain .invert]

/-- Code that pushes the values of arguments in order. -/
def emitArguments (names : Names) : List Expr → Emit (List CodeLine)
  | [] => return []
  | e :: rest => do
    let a ← emitExpr names e
    return a ++ (← emitArguments names rest)

end

mutual

/-- Code for a statement, which leaves the stack as it was. -/
def emitStmt (names : Names) : Stmt → Emit (List CodeLine)
  | .declare b init => do
    declareLocal b
    let declared := CodeLine.instruction (.variable_ b)
    match init with
    | none => return [declared]
    | some e => return [declared] ++ (← emitExpr names e) ++ [access .assign b.name]
  | .assign target value => do
    discard (variableDatatype names target)
    return (← emitExpr names value) ++ [access .assign target]
  | .assignIndexed target index value => do
    if !(← variableDatatype names target).array then throw .bitAssignment
    let i ← emitExpr names index
    let v ← emitExpr names value
    return i ++ v ++ [access .assignIndexed target]
  | .increment target => do
    discard (variableDatatype names target)
    return [access .increase target]
  | .decrement target => do
    discard (variableDatatype names target)
    return [access .decrease target]
  | .return_ none => return [number 0, plain .return_]
  | .return_ (some e) => return (← emitExpr names e) ++ [plain .return_]
  | .ifThen condition body => do
    let c ← emitExpr names condition
    let otherwise ← freshLabel
    let b ← emitBlock names body
    return c ++ [jump .ifFalse otherwise] ++ b ++ [.label otherwise]
  | .ifElse condition body alternative => do
    let c ← emitExpr names condition
    let otherwise ← freshLabel
    let b ← emitBlock names body
    let stop ← freshLabel
    let a ← emitBlock names alternative
    return c ++ [jump .ifFalse otherwise] ++ b ++ [jump .always stop, .label otherwise] ++ a ++
      [.label stop]
  | .while_ condition body => do
    let start ← freshLabel
    let c ← emitExpr names condition
    let stop ← freshLabel
    let b ← emitBlock names body
    return [.label start] ++ c ++ [jump .ifFalse stop] ++ b ++ [jump .always start, .label stop]
  | .doWhile body condition => do
    let start ← freshLabel
    let b ← emitBlock names body
    let c ← emitExpr names condition
    return [.label start] ++ b ++ c ++ [jump .ifTrue start]
  | .loop body => do
    let start ← freshLabel
    let b ← emitBlock names body
    return [.label start] ++ b ++ [jump .always start]
  | .expr e => return (← emitExpr names e) ++ [plain .delete]

/-- Code for a list of statements. -/
def emitBlock (names : Names) : List Stmt → Emit (List CodeLine)
  | [] => return []
  | s :: rest => do
    let a ← emitStmt names s
    return a ++ (← emitBlock names rest)

end

/-- Code that takes the arguments from the stack, the last one first. -/
def emitParameters : List Binding → Emit (List CodeLine)
  | [] => return []
  | b :: rest => do
    declareLocal b
    return [.instruction (.variable_ b), access .assign b.name] ++ (← emitParameters rest)

/-- Code for the body of a function. A function whose end must not be reached says so first. -/
def emitBody (names : Names) (f : FunctionDef) (body : List Stmt) : Emit (List CodeLine) := do
  let mark ← if f.attributes.noreturn then
      noteCallee Program.unreachable
      pure [plain .noreturn]
    else pure []
  let parameters ← emitParameters f.parameters.reverse
  let code ← emitBlock names body
  return mark ++ parameters ++ code ++ [number 0, plain .return_]

/-- The section of a function with the names it calls, and the next free label behind it. -/
def emitFunction (names : Names) (nextLabel : Nat) (f : FunctionDef) (body : List Stmt) :
    Except CompileError (Section × List String × Nat) := do
  let (code, state) ← emitBody names f body ⟨nextLabel, .reserving 0, []⟩
  return (⟨.function, f.name, code⟩, state.callees, state.nextLabel)

/-- The code that gives a global its initial value. -/
def emitGlobal (g : GlobalDef) : List CodeLine :=
  .instruction (.global g.binding) ::
    match g.init with
    | none => []
    | some l => [literal l, access .assign g.binding.name]

/-- The first definition of each global. -/
def firstDefinitions : (seen : List String) → List GlobalDef → List GlobalDef
  | _, [] => []
  | seen, g :: rest =>
    if g.binding.name ∈ seen then firstDefinitions seen rest
    else g :: firstDefinitions (g.binding.name :: seen) rest

/-- The section that gives the globals their initial values. -/
def globalsCode (p : Program) : Section :=
  ⟨.globals, globalsSection,
    (firstDefinitions [] p.globals).flatMap emitGlobal ++ [number 0, plain .return_]⟩

/-- The section for control that must not come there: it stops the program with code one. -/
def trapSection : Section :=
  ⟨.function, Program.unreachable,
    [number 1, .instruction (.invokeNative "do_exit"), number 0, plain .return_]⟩

/-- The sections of functions, the graph of their calls, and the next free label. -/
def emitFunctions (names : Names) : (nextLabel : Nat) → CallGraph → List FunctionDef →
    Except CompileError (List Section × CallGraph)
  | _, graph, [] => return ([], graph)
  | nextLabel, graph, f :: rest =>
    match f.body with
    | .assembly _ => emitFunctions names nextLabel (graph.define f.name f.attributes []) rest
    | .statements body => do
      let (code, callees, nextLabel) ← emitFunction names nextLabel f body
      let (sections, graph) ←
        emitFunctions names nextLabel (graph.define f.name f.attributes callees) rest
      return (code :: sections, graph)

/-- Whether a program has code of its own for control that must not come there. -/
def hasTrap (functions : FunctionTable) : Bool :=
  match functions.get? Program.unreachable with
  | some f =>
    match f.body with
    | .statements _ => true
    | .assembly _ => false
  | none => false

end Bytecode

/-- The sections of a program. -/
def Program.toBytecode (p : Program) : Except CompileError (List Section) := do
  let globals ← (GlobalTable.ofProgram p).mapError .symbol
  let functions ← (FunctionTable.ofProgram p).mapError .symbol
  let (sections, graph) ← Bytecode.emitFunctions ⟨globals, functions⟩ 0 {} p.functions
  let reachable := (graph.root Program.unreachable).reachable
  return [Bytecode.globalsCode p] ++ sections.filter (fun s => reachable.contains s.name) ++
    if Bytecode.hasTrap functions then [] else [Bytecode.trapSection]

end Firestorm
