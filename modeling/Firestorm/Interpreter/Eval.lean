import Firestorm.Interpreter.Basic

/-!
# Evaluation

Expressions are evaluated from left to right, and a variable that is indexed is read before its
index. A name means the local variable if the frame of the function has one, else the global
variable. Locals belong to the whole function: a declaration in a branch or a loop outlives it.

All functions take a bound on the depth of the evaluation, counting every round of a loop and every
further statement as one step deeper. A larger bound never changes the result of an evaluation that
ends.

## Main definitions

* `Interpreter.lookup`, `Interpreter.staticDatatype`, `Interpreter.eval`, `Interpreter.execStmt`,
  `Interpreter.execBlock`, `Interpreter.call`.
-/

namespace Firestorm.Interpreter

/-- The variable that a name means. -/
def lookup (frame : Frame) (name : String) : Exec Variable := do
  match frame.get? name with
  | some v => return v
  | none =>
    match (← get).globals.get? name with
    | some v => return v
    | none => Exec.fault (.symbol (.undefined name))

/-- The frame after a change of the variable that a name means, which may be a global. -/
def modifyVariable (frame : Frame) (name : String) (f : Variable → Word) : Exec Frame := do
  match frame.get? name with
  | some v => return frame.set name (.holding v.datatype (f v))
  | none =>
    match (← get).globals.get? name with
    | some v =>
      modify fun m => { m with globals := m.globals.set name (.holding v.datatype (f v)) }
      return frame
    | none => Exec.fault (.symbol (.undefined name))

/-- The datatype of an expression that is passed as an argument. The results of operators have none:
they take that of the parameter. -/
def staticDatatype (functions : FunctionTable) (frame : Frame) : Expr → Exec (Option Datatype)
  | .literal value => return some value.datatype
  | .lookup name => return some (← lookup frame name).datatype
  | .index name _ => do
    let d := (← lookup frame name).datatype
    return some (if d.array then d.element else .int)
  | .call callee arguments => do
    return some (← Exec.ofSymbols (functions.resolve callee arguments.length)).returns
  | .binary .. | .compare .. | .unary .. | .not _ => return none

/-- The first parameter whose datatype differs from that of its argument is a fault. -/
def checkArguments (callee : String) :
    List Binding → List (Option Datatype × Word) → Except Fault Unit
  | parameter :: parameters, (datatype, _) :: arguments =>
    match datatype with
    | some d =>
      if parameter.datatype = d then checkArguments callee parameters arguments
      else .error (.datatypeMismatch callee parameter.name parameter.datatype d)
    | none => checkArguments callee parameters arguments
  | _, _ => .ok ()

/-- The frame in which the parameters hold their arguments. -/
def enter (parameters : List Binding) (arguments : List Word) : Frame :=
  (parameters.zip arguments).foldl
    (fun frame (b, value) => frame.set b.name (.holding b.datatype value)) ∅

/-- The functions that the machine itself provides, by the name of an assembly function. -/
def native (name : String) (arguments : List Word) : Exec Word := do
  let argument := arguments.headD 0
  match name with
  | "printc" =>
    Exec.print argument.toUInt64.toUInt8
    return 0
  | "allocate" => Exec.allocate argument
  | "deallocate" =>
    Exec.deallocate argument
    return 0
  | "do_exit" => throw (.exit argument)
  | _ => Exec.fault (.unknownNative name)

mutual

/-- The value of an expression. -/
def eval (functions : FunctionTable) (fuel : Nat) (frame : Frame) (e : Expr) : Exec Word :=
  match fuel with
  | 0 => throw .outOfFuel
  | fuel + 1 =>
    match e with
    | .literal value => Exec.literal value
    | .lookup name => return (← lookup frame name).value
    | .index name index => do
      let v ← lookup frame name
      let i ← eval functions fuel frame index
      if v.datatype.array then Exec.readCell v.value i else return Word.bitTest v.value i
    | .call callee arguments => do
      let f ← Exec.ofSymbols (functions.resolve callee arguments.length)
      let values ← evalArguments functions fuel frame arguments
      call functions fuel f values
    | .binary op left right => do
      let a ← eval functions fuel frame left
      let b ← eval functions fuel frame right
      match op.eval a b with
      | some value => return value
      | none => Exec.fault .divisionByZero
    | .compare op left right => do
      let a ← eval functions fuel frame left
      let b ← eval functions fuel frame right
      return Word.ofBool (op.eval a b)
    | .unary op operand => return op.eval (← eval functions fuel frame operand)
    | .not operand => return Word.ofBool ((← eval functions fuel frame operand) == 0)

/-- The values of arguments, each with its datatype if it has one. -/
def evalArguments (functions : FunctionTable) (fuel : Nat) (frame : Frame) (arguments : List Expr) :
    Exec (List (Option Datatype × Word)) :=
  match fuel with
  | 0 => throw .outOfFuel
  | fuel + 1 =>
    match arguments with
    | [] => return []
    | e :: rest => do
      let d ← staticDatatype functions frame e
      let value ← eval functions fuel frame e
      return (d, value) :: (← evalArguments functions fuel frame rest)

/-- The value that a function returns for its arguments. -/
def call (functions : FunctionTable) (fuel : Nat) (f : FunctionDef)
    (arguments : List (Option Datatype × Word)) : Exec Word :=
  match fuel with
  | 0 => throw .outOfFuel
  | fuel + 1 => do
    if f.parameters.length ≠ arguments.length then
      Exec.fault (.symbol (.arity f.name f.parameters.length arguments.length))
    else
      match checkArguments f.name f.parameters arguments with
      | .error e => Exec.fault e
      | .ok () =>
        let values := arguments.map Prod.snd
        match f.body with
        | .assembly _ => native f.name values
        | .statements body => do
          let (_, result) ← execBlock functions fuel (enter f.parameters values) body
          if f.attributes.noreturn then Exec.fault (.unreachable f.name)
          else return (result.map f.returns.truncate).getD 0

/-- The frame behind a statement, and the value if the statement returns one. -/
def execStmt (functions : FunctionTable) (fuel : Nat) (frame : Frame) (s : Stmt) :
    Exec (Frame × Option Word) :=
  match fuel with
  | 0 => throw .outOfFuel
  | fuel + 1 =>
    match s with
    | .declare b init => do
      match frame.get? b.name with
      | some v => if v.datatype ≠ b.datatype then Exec.fault (.symbol (.redefined b.name))
      | none => pure ()
      let value ← match init with
        | some e => eval functions fuel frame e
        | none => pure 0
      return (frame.set b.name (.holding b.datatype value), none)
    | .assign target e => do
      let value ← eval functions fuel frame e
      return (← modifyVariable frame target fun _ => value, none)
    | .assignIndexed target index e => do
      let v ← lookup frame target
      if !v.datatype.array then Exec.fault (.bitAssignment target)
      let i ← eval functions fuel frame index
      let value ← eval functions fuel frame e
      Exec.writeCell v.value i (v.datatype.element.truncate value)
      return (frame, none)
    | .increment target => return (← modifyVariable frame target fun v => v.value + 1, none)
    | .decrement target => return (← modifyVariable frame target fun v => v.value - 1, none)
    | .return_ none => return (frame, some 0)
    | .return_ (some e) => return (frame, some (← eval functions fuel frame e))
    | .ifThen condition body => do
      if (← eval functions fuel frame condition) = 0 then return (frame, none)
      else execBlock functions fuel frame body
    | .ifElse condition body otherwise => do
      if (← eval functions fuel frame condition) = 0 then
        execBlock functions fuel frame otherwise
      else execBlock functions fuel frame body
    | .while_ condition body => do
      if (← eval functions fuel frame condition) = 0 then return (frame, none)
      else
        match ← execBlock functions fuel frame body with
        | (frame, some value) => return (frame, some value)
        | (frame, none) => execStmt functions fuel frame (.while_ condition body)
    | .doWhile body condition => do
      match ← execBlock functions fuel frame body with
      | (frame, some value) => return (frame, some value)
      | (frame, none) =>
        if (← eval functions fuel frame condition) = 0 then return (frame, none)
        else execStmt functions fuel frame (.doWhile body condition)
    | .loop body => do
      match ← execBlock functions fuel frame body with
      | (frame, some value) => return (frame, some value)
      | (frame, none) => execStmt functions fuel frame (.loop body)
    | .expr e => do
      discard (eval functions fuel frame e)
      return (frame, none)

/-- The frame behind a list of statements, and the value if one of them returns one. -/
def execBlock (functions : FunctionTable) (fuel : Nat) (frame : Frame) (body : List Stmt) :
    Exec (Frame × Option Word) :=
  match fuel with
  | 0 => throw .outOfFuel
  | fuel + 1 =>
    match body with
    | [] => return (frame, none)
    | s :: rest => do
      match ← execStmt functions fuel frame s with
      | (frame, some value) => return (frame, some value)
      | (frame, none) => execBlock functions fuel frame rest

end

end Firestorm.Interpreter
