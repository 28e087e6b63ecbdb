import Firestorm.CompileError
import Firestorm.Native.Primitive
import Firestorm.Symbols.CallGraph
import Firestorm.Symbols.Function
import Firestorm.Symbols.Global
import Firestorm.Symbols.Slot

/-!
# From programs to primitives

The value of an expression is put into a target register. The registers before the target are kept,
and those behind it are free: the right operand of an operator goes into the next one. A call puts
the registers before the target aside, and the arguments into the first registers. An expression
that needs more registers than there are cannot be compiled.

Labels and strings are numbered through the whole program. Only functions that can be reached are
part of the result. An entry for the system and code for control that must not come there are added
if they are needed and the program has none of its own.

## Main definitions

* `Native.Generate`, `Native.globalDatum`, `Program.toNative`.
* `Native.expr`, `Native.stmt`, `Native.block`, `Native.function`: code.
-/

namespace Firestorm

namespace Native

/-- What is known of the names of a program. -/
structure Names where
  globals : GlobalTable
  functions : FunctionTable

/-- The next free label, the strings so far, the locals declared so far, and the functions called so
far. -/
structure GenerateState where
  nextLabel : Nat
  strings : List String
  layout : FrameLayout
  callees : List String

/-- Code generation for a function. -/
abbrev Generate (α : Type) := StateT GenerateState (Except CompileError) α

/-- Fails because of a name. -/
def ofSymbols {α : Type} (x : Except SymbolError α) : Generate α :=
  match x with
  | .ok a => pure a
  | .error e => throw (.symbol e)

/-- The label of a string. -/
def stringLabel (index : Nat) : String :=
  s!"__string_{index}"

/-- The label behind the body of a function. -/
def exitLabel (function : String) : String :=
  s!".L{function}.exit"

/-- The strings with one that may be new, and its place among them. -/
def internInto (strings : List String) (content : String) : Nat × List String :=
  match strings.idxOf? content with
  | some index => (index, strings)
  | none => (strings.length, strings ++ [content])

/-- The label of a string. -/
def intern (content : String) : Generate String :=
  modifyGet fun s =>
    let (index, strings) := internInto s.strings content
    (stringLabel index, { s with strings })

/-- A label of a function that has not been used before. The numbers have no bound. A counter of 32
bits gives the same labels to a program that has at most `2 ^ 32` of them. -/
def freshLabel (function : String) : Generate String :=
  modifyGet fun s => (s!".L{function}.{s.nextLabel}", { s with nextLabel := s.nextLabel + 1 })

/-- Notes that a function is called. -/
def noteCallee (name : String) : Generate Unit :=
  modify fun s => { s with callees := name :: s.callees }

/-- Declares a local variable. -/
def declareLocal (b : Binding) : Generate Slot := do
  let (slot, layout) ← ofSymbols ((← get).layout.declare b)
  modify fun s => { s with layout }
  return slot

/-- A variable: its datatype and where it is stored. -/
structure Variable where
  datatype : Datatype
  place : Place

/-- The variable that a name means: a local if there is one, else a global. -/
def variableOf (names : Names) (name : String) : Generate Variable := do
  match (← get).layout.get? name with
  | some slot => return ⟨slot.datatype, .frame slot.offset⟩
  | none =>
    match names.globals.get? name with
    | some d => return ⟨d, .data (globalLabel name)⟩
    | none => throw (.symbol (.undefined name))

/-- The register at a place of the file. -/
def register (c : Convention) (index : Nat) : Generate (Fin c.registers) :=
  if h : index < c.registers then return ⟨index, h⟩
  else throw (.registersExhausted c.registers)

/-- The register of results. -/
def result (c : Convention) : Fin c.registers := ⟨0, c.registers_pos⟩

/-- The registers before the given one. -/
def registersBefore {n : Nat} (target : Fin n) : List (Fin n) :=
  (List.finRange n).take target

section

variable (c : Convention) (names : Names) (function : String)

mutual

/-- Code that puts the value of an expression into the register at a place of the file. -/
def expr : Expr → (target : Nat) → Generate (List (Primitive c.registers))
  | .literal (.number value), target => return [.loadConst (← register c target) value]
  | .literal (.chr byte), target =>
    return [.loadConst (← register c target) (Int64.ofNat byte.toNat)]
  | .literal (.str content), target => do
    let t ← register c target
    return [.loadAddress t (← intern content)]
  | .lookup name, target => do
    let t ← register c target
    let v ← variableOf names name
    return [.load t v.place v.datatype.size]
  | .index name index, target => do
    let t ← register c target
    let v ← variableOf names name
    let code ← expr index (target + 1)
    let i ← register c (target + 1)
    let loaded := Primitive.load t v.place v.datatype.size
    if v.datatype.array then
      return loaded :: code ++ [.loadElement t i v.datatype.elementSize]
    else
      return loaded :: code ++ [.bitTest t i (← register c (target + 2))]
  | .call callee arguments, target => do
    let t ← register c target
    let f ← ofSymbols (names.functions.resolve callee arguments.length)
    noteCallee f.name
    if arguments.length > c.registers then throw (.registersExhausted c.registers)
    let code ← exprs arguments 0
    let moved := if target = 0 then [] else [Primitive.copy t (result c)]
    return .save (registersBefore t) :: code ++ [.call f.name] ++ moved ++
      [.restore (registersBefore t)]
  | .binary op left right, target => do
    let t ← register c target
    let a ← expr left target
    let b ← expr right (target + 1)
    return a ++ b ++ [.binary op t (← register c (target + 1))]
  | .compare op left right, target => do
    let t ← register c target
    let a ← expr left target
    let b ← expr right (target + 1)
    let operand ← register c (target + 1)
    let scratch ← register c (target + 2)
    return a ++ b ++ [.compare op t operand scratch (← freshLabel function)]
  | .unary op operand, target => do
    let t ← register c target
    return (← expr operand target) ++ [.unary op t]
  | .not operand, target => do
    let t ← register c target
    return (← expr operand target) ++ [.not t]

/-- Code that puts the values of arguments into registers from a place of the file on. -/
def exprs : List Expr → (target : Nat) → Generate (List (Primitive c.registers))
  | [], _ => return []
  | e :: rest, target => do
    let a ← expr e target
    return a ++ (← exprs rest (target + 1))

end

mutual

/-- Code for a statement. -/
def stmt : Stmt → Generate (List (Primitive c.registers))
  | .declare b init => do
    let slot ← declareLocal b
    let code ← match init with
      | some e => expr c names function e 0
      | none => pure [.loadConst (result c) 0]
    return code ++ [.store (.frame slot.offset) (result c) slot.datatype.size]
  | .assign target value => do
    let v ← variableOf names target
    let code ← expr c names function value 0
    return code ++ [.store v.place (result c) v.datatype.size]
  | .assignIndexed target index value => do
    let v ← variableOf names target
    if !v.datatype.array then throw .bitAssignment
    let i ← expr c names function index 0
    let x ← expr c names function value 1
    let element ← register c 1
    let base ← register c 2
    return i ++ x ++ [.load base v.place v.datatype.size,
      .storeElement base (result c) element v.datatype.elementSize]
  | .increment target => do
    let v ← variableOf names target
    return [.step v.place v.datatype.size 1]
  | .decrement target => do
    let v ← variableOf names target
    return [.step v.place v.datatype.size (-1)]
  | .return_ none => return [.loadConst (result c) 0, .jump (exitLabel function)]
  | .return_ (some e) => return (← expr c names function e 0) ++ [.jump (exitLabel function)]
  | .ifThen condition body => do
    let otherwise ← freshLabel function
    let test ← expr c names function condition 0
    let b ← block body
    return test ++ [.jumpIfZero (result c) otherwise] ++ b ++ [.label otherwise]
  | .ifElse condition body alternative => do
    let otherwise ← freshLabel function
    let test ← expr c names function condition 0
    let b ← block body
    let stop ← freshLabel function
    let a ← block alternative
    return test ++ [.jumpIfZero (result c) otherwise] ++ b ++ [.jump stop, .label otherwise] ++ a ++
      [.label stop]
  | .while_ condition body => do
    let start ← freshLabel function
    let stop ← freshLabel function
    let test ← expr c names function condition 0
    let b ← block body
    return [.label start] ++ test ++ [.jumpIfZero (result c) stop] ++ b ++
      [.jump start, .label stop]
  | .doWhile body condition => do
    let start ← freshLabel function
    let b ← block body
    let test ← expr c names function condition 0
    return [.label start] ++ b ++ test ++ [.jumpIfNotZero (result c) start]
  | .loop body => do
    let start ← freshLabel function
    let b ← block body
    return [.label start] ++ b ++ [.jump start]
  | .expr e => expr c names function e 0

/-- Code for a list of statements. -/
def block : List Stmt → Generate (List (Primitive c.registers))
  | [] => return []
  | s :: rest => do
    let a ← stmt s
    return a ++ (← block rest)

end

/-- Code that stores the arguments, which arrive in the first registers. -/
def parameters : List Binding → (index : Nat) → Generate (List (Primitive c.registers))
  | [], _ => return []
  | b :: rest, index => do
    let slot ← declareLocal b
    let r ← register c index
    return .store (.frame slot.offset) r slot.datatype.size :: (← parameters rest (index + 1))

end

/-- Code for the body of a function. -/
def functionBody (c : Convention) (names : Names) (f : FunctionDef) (body : List Stmt) :
    Generate (List (Primitive c.registers)) := do
  let stores ← parameters c f.parameters 0
  let code ← block c names f.name body
  if f.attributes.noreturn then noteCallee Program.unreachable
  let frame := (← get).layout.size
  return [.label f.name, .prologue frame] ++ stores ++ code ++
    [.loadConst (result c) 0, .label (exitLabel f.name), .epilogue frame f.attributes.noreturn]

/-- The code of a function with the names it calls. -/
structure FunctionCode (n : Nat) where
  function : FunctionDef
  code : List (Primitive n)
  callees : List String

/-- The unit of a function, behind the labels and strings used before. -/
def functionUnit (c : Convention) (names : Names) (nextLabel : Nat) (strings : List String)
    (f : FunctionDef) : Except CompileError (FunctionCode c.registers × Nat × List String) := do
  let exported := if f.attributes.global then [Primitive.exportSymbol f.name] else []
  match f.body with
  | .assembly code =>
    return (⟨f, exported ++ [.label f.name, .verbatim code], []⟩, nextLabel, strings)
  | .statements body =>
    let (code, s) ← functionBody c names f body ⟨nextLabel, strings, .reserving c.reserved, []⟩
    return (⟨f, exported ++ code, s.callees⟩, s.nextLabel, s.strings)

/-- The units of functions, with the strings used in them and before. -/
def functionUnits (c : Convention) (names : Names) : (nextLabel : Nat) → (strings : List String) →
    List FunctionDef → Except CompileError (List (FunctionCode c.registers) × List String)
  | _, strings, [] => return ([], strings)
  | nextLabel, strings, f :: rest => do
    let (unit, nextLabel, strings) ← functionUnit c names nextLabel strings f
    let (units, strings) ← functionUnits c names nextLabel strings rest
    return (unit :: units, strings)

/-- The initial value of a global, with the strings used so far. -/
def globalDatum (strings : List String) (g : GlobalDef) :
    Except CompileError (Datum × List String) :=
  match g.init, g.binding.datatype.size with
  | none, 1 => .ok (.byte 0, strings)
  | none, _ => .ok (.quad 0, strings)
  | some (.number value), 1 => .ok (.byte value.toUInt64.toUInt8, strings)
  | some (.number value), _ => .ok (.quad value, strings)
  | some (.chr byte), 1 => .ok (.byte byte, strings)
  | some (.chr byte), _ => .ok (.quad (Int64.ofNat byte.toNat), strings)
  | some (.str _), 1 => .error .chrFromString
  | some (.str content), _ =>
    let (index, strings) := internInto strings content
    .ok (.address (stringLabel index), strings)

/-- The data of the globals, with the strings used so far. Of several definitions of a name the
first one counts. -/
def globalData {n : Nat} : (seen strings : List String) → List GlobalDef →
    Except CompileError (List (Primitive n) × List String)
  | _, strings, [] => return ([], strings)
  | seen, strings, g :: rest =>
    let name := g.binding.name
    if name ∈ seen then globalData seen strings rest
    else do
      let (value, strings) ← globalDatum strings g
      let (data, strings) ← globalData (name :: seen) strings rest
      return (.datum (globalLabel name) value :: data, strings)

/-- The name that the system calls. -/
def systemEntry : String := "main"

/-- The graph of the calls of units. -/
def callGraph {n : Nat} (units : List (FunctionCode n)) : CallGraph :=
  units.foldl (fun g u => g.define u.function.name u.function.attributes u.callees) {}

/-- The data of the strings. -/
def stringData {n : Nat} (strings : List String) : List (Primitive n) :=
  (strings.zipIdx).map fun (content, index) => .string (stringLabel index) content

end Native

open Native in
/-- The primitives of a program. -/
def Program.toNative (p : Program) (c : Convention) :
    Except CompileError (List (Primitive c.registers)) := do
  let globals ← (GlobalTable.ofProgram p).mapError .symbol
  let functions ← (FunctionTable.ofProgram p).mapError .symbol
  let (units, strings) ← functionUnits c ⟨globals, functions⟩ 0 [] p.functions
  let reachable := (callGraph units).reachable
  let kept := units.filter fun u => reachable.contains u.function.name
  let entry := if reachable.contains Program.entryPoint && (functions.get? systemEntry).isNone
    then [Primitive.entry Program.entryPoint] else []
  let trap := if kept.any (·.function.attributes.noreturn) &&
      (functions.get? Program.unreachable).isNone
    then [Primitive.trap Program.unreachable] else []
  let (data, strings) ← globalData [] strings p.globals
  return [.text] ++ kept.flatMap FunctionCode.code ++ entry ++ trap ++ [.data] ++ data ++
    stringData strings

end Firestorm
