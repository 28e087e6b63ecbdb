import Mathlib.Data.List.FinRange
import Mathlib.Logic.Function.Basic
import Firestorm.Native.Generate

/-!
# A machine with a file of registers

This file gives the primitives of native code their meaning on a machine that has a file of `n`
registers, a stack of words, the bytes of the current frame, and a world outside the function: the
bytes of the globals, the bytes of the memory that pointers lead to, and the calls made so far.

What a call does to the world is arbitrary. It leaves its result in the first register, may destroy
every other register, and keeps the frame and the stack. Likewise nothing is assumed about what an
operator leaves in its operand and scratch registers. Both are described by a `Setting`, and every
statement about the machine holds in every setting.

Beside the machine stands the value of an expression: operands are evaluated from left to right, a
variable that is indexed is read before its index, and arguments are evaluated in order. It can be
obstructed in two ways only, by a division by zero and by a name without a meaning.

## Main definitions

* `Native.World`, `Native.RegisterState`, `Native.Setting`, `Native.perform`, `Native.performAll`,
  `Native.Reading`, `Native.Reading.value`, `Native.Reading.values`.
-/

namespace Firestorm.Native

/-- What lies outside a function: the bytes behind the label of each global, the bytes of memory by
address, and the calls made so far with their arguments, the last one first. -/
structure World where
  data : String → Nat → UInt8
  memory : Word → UInt8
  calls : List (String × List Word)

/-- The state of a machine with `n` registers inside a function. -/
structure RegisterState (n : Nat) where
  registers : Fin n → Word
  stack : List Word
  frame : Nat → UInt8
  world : World

/-- The surroundings of a function: the addresses of labels, what a call with given arguments
returns and does to the world, and what is left in a register that a primitive may destroy. -/
structure Setting (n : Nat) where
  address : String → Word
  effect : String → List Word → World → Word × World
  leftover : Primitive n → RegisterState n → Fin n → Word

/-- The word that consecutive bytes spell, the lowest first, extended with zeros. -/
def wordOfBytes : List UInt8 → Nat
  | [] => 0
  | byte :: bytes => byte.toNat + 256 * wordOfBytes bytes

/-- The word of `size` bytes from `start` on. -/
def readBytes (bytes : Nat → UInt8) (start size : Nat) : Word :=
  Int64.ofNat (wordOfBytes ((List.range size).map fun i => bytes (start + i)))

/-- The word in an element of `size` bytes of the array at an address. -/
def World.element (w : World) (base index : Word) (size : Nat) : Word :=
  readBytes (fun i => w.memory (base + index * Int64.ofNat size + Int64.ofNat i)) 0 size

/-- The world behind a call. -/
def Setting.call {n : Nat} (E : Setting n) (function : String) (arguments : List Word) (w : World) :
    Word × World :=
  let (result, w') := E.effect function arguments w
  (result, { w' with calls := (function, arguments) :: w.calls })

namespace RegisterState

variable {n : Nat}

/-- The state in which one register holds another word. -/
def set (s : RegisterState n) (r : Fin n) (value : Word) : RegisterState n :=
  { s with registers := Function.update s.registers r value }

/-- The word in a variable of `size` bytes. -/
def variable_ (s : RegisterState n) : Place → (size : Nat) → Word
  | .frame offset, size => readBytes s.frame offset size
  | .data label, size => readBytes (s.world.data label) 0 size

/-- The state in which registers have been pushed, the first one first. -/
def push (s : RegisterState n) (rs : List (Fin n)) : RegisterState n :=
  { s with stack := (rs.map s.registers).reverse ++ s.stack }

/-- The state in which registers have been popped in the given order, if the stack is high
enough. -/
def pop : RegisterState n → List (Fin n) → Option (RegisterState n)
  | s, [] => some s
  | s, r :: rs =>
    match s.stack with
    | [] => none
    | value :: stack => pop { s.set r value with stack } rs

end RegisterState

section

variable {n : Nat} (functions : FunctionTable) (E : Setting n)

/-- The number of registers from which a function takes its arguments. -/
def arity (function : String) : Nat :=
  match functions.get? function with
  | some f => f.parameters.length
  | none => 0

/-- The meaning of a primitive that computes. A division by zero has none, nor has a pop from an
empty stack, nor have the primitives that direct control or lay out data. -/
def perform (p : Primitive n) (s : RegisterState n) : Option (RegisterState n) :=
  match p with
  | .loadConst t value => some (s.set t value)
  | .loadAddress t label => some (s.set t (E.address label))
  | .load t place size => some (s.set t (s.variable_ place size))
  | .loadElement t index size =>
    some ((s.set index (E.leftover p s index)).set t
      (s.world.element (s.registers t) (s.registers index) size))
  | .binary op t operand =>
    (op.eval (s.registers t) (s.registers operand)).map fun value =>
      (s.set operand (E.leftover p s operand)).set t value
  | .compare op t operand scratch _ =>
    some (((s.set operand (E.leftover p s operand)).set scratch (E.leftover p s scratch)).set t
      (Word.ofBool (op.eval (s.registers t) (s.registers operand))))
  | .not t => some (s.set t (Word.ofBool (s.registers t == 0)))
  | .unary op t => some (s.set t (op.eval (s.registers t)))
  | .bitTest t index scratch =>
    some (((s.set index (E.leftover p s index)).set scratch (E.leftover p s scratch)).set t
      (Word.bitTest (s.registers t) (s.registers index)))
  | .save rs => some (s.push rs)
  | .restore rs => s.pop rs.reverse
  | .copy t source => some (s.set t (s.registers source))
  | .call function =>
    let arguments := ((List.finRange n).take (arity functions function)).map s.registers
    let (value, world) := E.call function arguments s.world
    some { s with
      registers := fun r => if r.val = 0 then value else E.leftover p s r
      world }
  | _ => none

/-- The meaning of a list of primitives. -/
def performAll : List (Primitive n) → RegisterState n → Option (RegisterState n)
  | [], s => some s
  | p :: code, s => (perform functions E p s).bind (performAll code)

@[simp] theorem performAll_nil (s : RegisterState n) : performAll functions E [] s = some s := rfl

theorem performAll_cons (p : Primitive n) (code : List (Primitive n)) (s : RegisterState n) :
    performAll functions E (p :: code) s =
    (perform functions E p s).bind (performAll functions E code) := rfl

@[simp] theorem performAll_singleton (p : Primitive n) (s : RegisterState n) :
    performAll functions E [p] s = perform functions E p s := by
  rw [performAll_cons]
  cases perform functions E p s <;> rfl

theorem performAll_append (code more : List (Primitive n)) (s : RegisterState n) :
    performAll functions E (code ++ more) s =
    (performAll functions E code s).bind (performAll functions E more) := by
  induction code generalizing s with
  | nil => rfl
  | cons p code ih =>
    rw [List.cons_append, performAll_cons, performAll_cons, Option.bind_assoc]
    exact congrArg _ (funext ih)

end

/-- What keeps an expression from having a value. -/
inductive Obstacle
  | divisionByZero
  | undefined (name : String)
deriving Repr, DecidableEq

/-- The variable that a name means: a local if there is one, else a global. -/
def Names.variableIn? (names : Names) (layout : FrameLayout) (name : String) : Option Variable :=
  match layout.get? name with
  | some slot => some ⟨slot.datatype, .frame slot.offset⟩
  | none => (names.globals.get? name).map fun d => ⟨d, .data (globalLabel name)⟩

/-- What an expression is read against: the locals and the names in scope, and the pool in which
every string has its place. -/
structure Reading where
  layout : FrameLayout
  names : Names
  pool : List String

namespace Reading

variable {n : Nat} (R : Reading) (E : Setting n)

/-- The word in a variable, with the bytes of the frame and the world as they are. -/
def load (frame : Nat → UInt8) (w : World) (v : Variable) : Word :=
  match v.place with
  | .frame offset => readBytes frame offset v.datatype.size
  | .data label => readBytes (w.data label) 0 v.datatype.size

/-- The value of a constant. The value of a string is the address of its place in the pool. -/
def literal : Literal → Word
  | .number value => value
  | .chr byte => Int64.ofNat byte.toNat
  | .str content => E.address (stringLabel (R.pool.idxOf content))

mutual

/-- The value of an expression, and the world behind its evaluation. -/
def value (frame : Nat → UInt8) : Expr → World → Except Obstacle (Word × World)
  | .literal l, w => .ok (R.literal E l, w)
  | .lookup name, w =>
    match R.names.variableIn? R.layout name with
    | none => .error (.undefined name)
    | some v => .ok (load frame w v, w)
  | .index name index, w =>
    match R.names.variableIn? R.layout name with
    | none => .error (.undefined name)
    | some v => do
      let base := load frame w v
      let (i, w) ← value frame index w
      if v.datatype.array then return (w.element base i v.datatype.elementSize, w)
      else return (Word.bitTest base i, w)
  | .call callee arguments, w => do
    match R.names.functions.get? callee with
    | none => .error (.undefined callee)
    | some f =>
      let (xs, w) ← values frame arguments w
      return E.call f.name xs w
  | .binary op left right, w => do
    let (a, w) ← value frame left w
    let (b, w) ← value frame right w
    match op.eval a b with
    | some x => return (x, w)
    | none => .error .divisionByZero
  | .compare op left right, w => do
    let (a, w) ← value frame left w
    let (b, w) ← value frame right w
    return (Word.ofBool (op.eval a b), w)
  | .unary op operand, w => do
    let (a, w) ← value frame operand w
    return (op.eval a, w)
  | .not operand, w => do
    let (a, w) ← value frame operand w
    return (Word.ofBool (a == 0), w)

/-- The values of arguments, and the world behind their evaluation. -/
def values (frame : Nat → UInt8) : List Expr → World → Except Obstacle (List Word × World)
  | [], w => .ok ([], w)
  | e :: rest, w => do
    let (x, w) ← value frame e w
    let (xs, w) ← values frame rest w
    return (x :: xs, w)

end

end Reading

end Firestorm.Native
