import Firestorm.Proofs.Bytecode.Agreement

/-!
# Heights of the operand stack

Every instruction takes a fixed number of values from the stack and puts a fixed number there, so
code can be given a height of the stack in front of each of its lines. The code of a function can be
given heights that start with the number of its parameters and agree along all edges: no instruction
finds too few values, all ways to a label come with the same height, and a function returns with one
value.

The heights are found by walking through the code once. Every label of the code of a function stands
between two statements, where the stack is empty, and so does every line that control does not come
to from the line before it. This is why a walk need not know where jumps lead.

The section for control that must not come there is not the code of a function. Its last two lines
stand behind a call that stops the program, whose result they leave below their own.

## Main definitions

* `Bytecode.effect?`, `Bytecode.heightAfter?`, `Bytecode.Balanced`, `Bytecode.walk`.

## Main results

* `Bytecode.length_stack_of_perform`, `Bytecode.walk_exprCode`, `Bytecode.walk_blockCode`,
  `Bytecode.balanced_of_walk`.
* `Program.balanced_of_toBytecode`: the heights of the sections of a program.
-/

namespace Firestorm

namespace Bytecode

open StackMachine

variable {name : String} {op : Instruction}

/-! ### Effects of instructions -/

/-- How many values an instruction takes from the stack, and how many it puts there then. -/
structure Effect where
  pops : Nat
  pushes : Nat
deriving Repr, DecidableEq

/-- The effect of an access to a variable. -/
def accessEffect : Access → Effect
  | .assign => ⟨1, 0⟩
  | .assignIndexed => ⟨2, 0⟩
  | .load => ⟨0, 1⟩
  | .loadIndexed => ⟨1, 1⟩
  | .increase | .decrease => ⟨0, 0⟩

/-- The effect of an instruction without operands. A return leaves the stack to the caller. -/
def plainEffect : PlainOp → Effect
  | .binary _ | .compare _ => ⟨2, 1⟩
  | .not | .invert => ⟨1, 1⟩
  | .delete => ⟨1, 0⟩
  | .return_ | .noreturn => ⟨0, 0⟩

/-- The effect of an instruction in the code of a program. A call of a function takes its arguments
and leaves its value; a native function has one argument. -/
def effect? (p : Program) : Instruction → Option Effect
  | .global _ | .variable_ _ => some ⟨0, 0⟩
  | .access a _ => some (accessEffect a)
  | .number _ | .string _ => some ⟨0, 1⟩
  | .jump .always _ => some ⟨0, 0⟩
  | .jump .ifTrue _ | .jump .ifFalse _ => some ⟨1, 0⟩
  | .invoke callee => (p.function? callee).map fun f => ⟨f.parameters.length, 1⟩
  | .invokeNative _ => some ⟨1, 1⟩
  | .plain op => some (plainEffect op)

/-- The height of the stack behind an instruction, if the stack holds what the instruction takes. -/
def heightAfter? (p : Program) (op : Instruction) (height : Nat) : Option Nat :=
  (effect? p op).bind fun e =>
    if e.pops ≤ height then some (height - e.pops + e.pushes) else none

/-- Whether control can come to the next line behind an instruction. -/
def fallsThrough : Instruction → Bool
  | .jump .always _ | .plain .return_ => false
  | _ => true

section

variable {image : List UInt8} {frame frame' : StackMachine.Frame} {s s' : State}

theorem stack_of_pop {value : Word} (h : s.pop = some (value, s')) :
    s.stack = value :: s'.stack := by
  unfold State.pop at h
  split at h
  · cases h
  · next hstack =>
    cases h
    exact hstack

theorem stack_of_store {slot : UInt64} {cell : Cell}
    (h : store frame s slot cell = .next frame' s') : s'.stack = s.stack := by
  unfold store at h
  split at h <;> cases h <;> rfl

/-- An access to a variable changes the stack as its effect says. -/
theorem length_stack_of_performAccess {a : Access} {cell : Cell} {slot : UInt64}
    (h : performAccess a cell slot frame s = some (.next frame' s')) :
    (accessEffect a).pops ≤ s.stack.length ∧
      s'.stack.length + (accessEffect a).pops = s.stack.length + (accessEffect a).pushes := by
  cases a with
  | load =>
    cases h
    simp [accessEffect, State.push]
  | loadIndexed =>
    simp only [performAccess, Option.bind_eq_bind, Option.bind_eq_some_iff] at h
    obtain ⟨⟨index, s₁⟩, hpop, h⟩ := h
    have hstack := stack_of_pop hpop
    split at h
    · obtain ⟨value, -, h⟩ := Option.bind_eq_some_iff.1 h
      cases h
      simp [accessEffect, State.push, hstack]
    · cases h
      simp [accessEffect, State.push, hstack]
  | assign =>
    simp only [performAccess, Option.bind_eq_bind, Option.bind_eq_some_iff] at h
    obtain ⟨⟨value, s₁⟩, hpop, h⟩ := h
    have hstack := stack_of_pop hpop
    simp [accessEffect, stack_of_store (Option.some.inj h), hstack]
  | assignIndexed =>
    simp only [performAccess, Option.bind_eq_bind, Option.bind_eq_some_iff] at h
    obtain ⟨⟨value, s₁⟩, hpop, ⟨index, s₂⟩, hpop', heap, -, h⟩ := h
    cases h
    have hstack : s₁.stack = index :: s₂.stack := stack_of_pop hpop'
    simp [accessEffect, stack_of_pop hpop, hstack]
  | increase => simp [accessEffect, stack_of_store (Option.some.inj h)]
  | decrease => simp [accessEffect, stack_of_store (Option.some.inj h)]

/-- An operation without operands changes the stack as its effect says. -/
theorem length_stack_of_performPlain {op : PlainOp}
    (h : performPlain op frame s = some (.next frame' s')) :
    (plainEffect op).pops ≤ s.stack.length ∧
      s'.stack.length + (plainEffect op).pops = s.stack.length + (plainEffect op).pushes := by
  cases op with
  | binary op =>
    simp only [performPlain, Option.bind_eq_bind, Option.bind_eq_some_iff] at h
    obtain ⟨⟨b, s₁⟩, hpop, ⟨a, s₂⟩, hpop', value, -, h⟩ := h
    cases h
    have hstack : s₁.stack = a :: s₂.stack := stack_of_pop hpop'
    simp [plainEffect, State.push, stack_of_pop hpop, hstack]
  | compare op =>
    simp only [performPlain, Option.bind_eq_bind, Option.bind_eq_some_iff] at h
    obtain ⟨⟨b, s₁⟩, hpop, ⟨a, s₂⟩, hpop', h⟩ := h
    cases h
    have hstack : s₁.stack = a :: s₂.stack := stack_of_pop hpop'
    simp [plainEffect, State.push, stack_of_pop hpop, hstack]
  | not | invert =>
    simp only [performPlain, Option.bind_eq_bind, Option.bind_eq_some_iff] at h
    obtain ⟨⟨value, s₁⟩, hpop, h⟩ := h
    cases h
    simp [plainEffect, State.push, stack_of_pop hpop]
  | delete =>
    simp only [performPlain, Option.bind_eq_bind, Option.bind_eq_some_iff] at h
    obtain ⟨⟨value, s₁⟩, hpop, h⟩ := h
    cases h
    simp [plainEffect, stack_of_pop hpop]
  | noreturn =>
    cases h
    simp [plainEffect]
  | return_ =>
    cases hnoreturn : frame.noreturn <;> simp [performPlain, hnoreturn] at h

/-- A native function that comes back puts one value on the stack. -/
theorem length_stack_of_performNative {argument : Word}
    (h : performNative name argument frame s = some (.next frame' s')) :
    s'.stack.length = s.stack.length + 1 := by
  unfold performNative at h
  split at h
  · cases h
    rfl
  · obtain ⟨⟨pointer, heap⟩, -, h⟩ := Option.bind_eq_some_iff.1 h
    cases h
    rfl
  · obtain ⟨heap, -, h⟩ := Option.bind_eq_some_iff.1 h
    cases h
    rfl
  · cases h

/-- The stack machine changes the stack as the effect of the instruction says. -/
theorem length_stack_of_perform {p : Program} {k : Naming} {symbols : SymbolValues}
    {sectionName : String} {e : Effect} (he : effect? p op = some e)
    (h : perform image (k.command symbols sectionName op) frame s = some (.next frame' s')) :
    e.pops ≤ s.stack.length ∧ s'.stack.length + e.pops = s.stack.length + e.pushes := by
  cases op with
  | global b | variable_ b =>
    cases he
    cases h
    simp
  | access a name =>
    cases he
    obtain ⟨cell, -, h⟩ := Option.bind_eq_some_iff.1 h
    exact length_stack_of_performAccess h
  | number value =>
    cases he
    cases h
    simp [State.push]
  | string content =>
    cases he
    obtain ⟨⟨pointer, heap⟩, -, h⟩ := Option.bind_eq_some_iff.1 h
    cases h
    simp [State.push]
  | jump kind label =>
    cases kind with
    | always =>
      cases he
      cases h
      simp
    | ifTrue | ifFalse =>
      cases he
      obtain ⟨⟨value, s₁⟩, hpop, h⟩ := Option.bind_eq_some_iff.1 h
      cases h
      simp [stack_of_pop hpop]
  | invoke callee => cases h
  | invokeNative callee =>
    cases he
    simp only [Naming.command, perform, Option.bind_eq_bind, Option.bind_eq_some_iff] at h
    obtain ⟨⟨argument, s₁⟩, hpop, name, -, h⟩ := h
    simp [length_stack_of_performNative h, stack_of_pop hpop]
  | plain op =>
    cases he
    exact length_stack_of_performPlain h

end

/-! ### Heights that agree -/

/-- Heights of the stack in front of the lines of code, which starts with the given number of
arguments on the stack. Along each edge from line to line the height changes by the effect of the
instruction, a jump leads to the one place of its label, control does not leave the code at its end,
and the stack has the given height at each return. -/
structure Balanced (p : Program) (arguments result : Nat) (code : List CodeLine)
    (height : Nat → Nat) : Prop where
  nonempty : code ≠ []
  entry : height 0 = arguments
  label : ∀ i name, code[i]? = some (.label name) → i + 1 < code.length ∧ height (i + 1) = height i
  instruction : ∀ i op, code[i]? = some (.instruction op) → ∃ after,
    heightAfter? p op (height i) = some after ∧
      (fallsThrough op = true → i + 1 < code.length ∧ height (i + 1) = after) ∧
      ∀ name, target? (.instruction op) = some name →
        ∃ j, (∀ i, code[i]? = some (.label name) ↔ i = j) ∧ height j = after
  return_ : ∀ i, code[i]? = some (plain .return_) → height i = result

/-! ### Walking through code -/

/-- The height in front of the next line. Labels and the targets of jumps are where the stack is
empty, and so is a line that control does not come to from the line before it. -/
def next? (p : Program) (result height : Nat) : CodeLine → Option Nat
  | .label _ => if height = 0 then some 0 else none
  | .instruction op => do
    let after ← heightAfter? p op height
    if op = .plain .return_ ∧ height ≠ result then none
    else if (target? (.instruction op)).isSome ∧ after ≠ 0 then none
    else if fallsThrough op then return after
    else return 0

/-- The height behind code. -/
def walk (p : Program) (result height : Nat) (code : List CodeLine) : Option Nat :=
  code.foldlM (next? p result) height

/-- The height in front of a line, if a walk comes there. -/
def heightAt (p : Program) (result height : Nat) (code : List CodeLine) (i : Nat) : Nat :=
  (walk p result height (code.take i)).getD 0

section

variable {p : Program} {r h : Nat}

@[simp] theorem walk_nil : walk p r h [] = some h := rfl

@[simp] theorem walk_cons (line : CodeLine) (code : List CodeLine) :
    walk p r h (line :: code) = (next? p r h line).bind (walk p r · code) := rfl

@[simp] theorem walk_append (code more : List CodeLine) :
    walk p r h (code ++ more) = (walk p r h code).bind (walk p r · more) :=
  List.foldlM_append

theorem next?_label : next? p r h (.label name) = if h = 0 then some 0 else none := rfl

theorem next?_instruction : next? p r h (.instruction op) = (heightAfter? p op h).bind fun after =>
    if op = .plain .return_ ∧ h ≠ r then none
    else if (target? (.instruction op)).isSome ∧ after ≠ 0 then none
    else if fallsThrough op then some after
    else some 0 := rfl

/-- An instruction that control runs through takes and leaves what its effect says. -/
theorem next?_of_effect {e : Effect} (heffect : effect? p op = some e)
    (htarget : target? (.instruction op) = none) (hfalls : fallsThrough op = true) :
    next? p r (h + e.pops) (.instruction op) = some (h + e.pushes) := by
  have hreturn : op ≠ .plain .return_ := by
    rintro rfl
    cases hfalls
  have hafter : heightAfter? p op (h + e.pops) = some (h + e.pushes) := by
    simp [heightAfter?, heffect]
  simp [next?, hafter, hreturn, htarget, hfalls]

@[simp] theorem next?_literal (value : Literal) : next? p r h (literal value) = some (h + 1) := by
  cases value <;> rfl

/-! ### Walks give heights that agree -/

variable {code : List CodeLine}

/-- A walk through code goes from line to line by the heights in front of them. -/
theorem next?_heightAt {k i : Nat} {line : CodeLine} (hwalk : walk p r h code = some k)
    (hline : code[i]? = some line) :
    next? p r (heightAt p r h code i) line = some (heightAt p r h code (i + 1)) := by
  have htake : code.take (i + 1) = code.take i ++ [line] := by
    rw [List.take_add_one, hline, Option.toList_some]
  have hsplit : walk p r h (code.take (i + 1) ++ code.drop (i + 1)) = some k := by
    rwa [List.take_append_drop]
  rw [walk_append] at hsplit
  obtain ⟨next, hnext, -⟩ := Option.bind_eq_some_iff.1 hsplit
  have hthrough := hnext
  rw [htake, walk_append] at hthrough
  obtain ⟨before, hbefore, hstep⟩ := Option.bind_eq_some_iff.1 hthrough
  have hlast : next? p r before line = some next := by simpa using hstep
  rw [heightAt, heightAt, hbefore, hnext]
  exact hlast

theorem next?_label_eq {next : Nat} (hnext : next? p r h (.label name) = some next) :
    h = 0 ∧ next = 0 := by
  simp only [next?] at hnext
  split at hnext
  · next hzero => exact ⟨hzero, (Option.some.inj hnext).symm⟩
  · cases hnext

theorem next?_instruction_eq {next : Nat} (hnext : next? p r h (.instruction op) = some next) :
    ∃ after,
      heightAfter? p op h = some after ∧ (op = .plain .return_ → h = r) ∧
      (∀ name, target? (.instruction op) = some name → after = 0) ∧
      (fallsThrough op = true → next = after) := by
  simp only [next?, Option.bind_eq_bind, Option.bind_eq_some_iff] at hnext
  obtain ⟨after, hafter, hnext⟩ := hnext
  refine ⟨after, hafter, ?_⟩
  split at hnext
  · cases hnext
  · next hreturn =>
    split at hnext
    · cases hnext
    · next htarget =>
      refine ⟨fun hop => ?_, fun name hname => ?_, fun hfalls => ?_⟩
      · by_contra hne
        exact hreturn ⟨hop, hne⟩
      · by_contra hne
        exact htarget ⟨by rw [hname]; rfl, hne⟩
      · rw [if_pos hfalls] at hnext
        exact (Option.some.inj hnext).symm

/-- A label that code places once stands in one place. -/
theorem exists_place_of_mem_labelsOf (hnodup : (labelsOf code).Nodup)
    (hname : name ∈ labelsOf code) :
    ∃ j : Nat, ∀ i : Nat, code[i]? = some (.label name) ↔ i = j := by
  obtain ⟨j, hj⟩ := List.mem_iff_getElem?.1 (mem_labelsOf.1 hname)
  refine ⟨j, fun i => ⟨fun hi => ?_, fun hi => hi ▸ hj⟩⟩
  rw [labelsOf, List.Nodup, List.pairwise_filterMap] at hnodup
  rw [List.pairwise_iff_getElem] at hnodup
  obtain ⟨hilt, hi⟩ := List.getElem?_eq_some_iff.1 hi
  obtain ⟨hjlt, hj⟩ := List.getElem?_eq_some_iff.1 hj
  rcases Nat.lt_trichotomy i j with hlt | heq | hlt
  · exact absurd rfl (hnodup i j hilt hjlt hlt name (by rw [hi]; rfl) name (by rw [hj]; rfl))
  · exact heq
  · exact absurd rfl (hnodup j i hjlt hilt hlt name (by rw [hj]; rfl) name (by rw [hi]; rfl))

/-- The heights of a walk agree along all edges if jumps lead to labels of the code, each of which
is placed once, and the code ends with a return. -/
theorem balanced_of_walk {k : Nat} (hwalk : walk p r h code = some k)
    (hlast : code.getLast? = some (plain .return_)) (hnodup : (labelsOf code).Nodup)
    (htargets : ∀ name ∈ targetsOf code, name ∈ labelsOf code) :
    Balanced p h r code (heightAt p r h code) := by
  -- Only the last line has no line behind it, and that is a return.
  have hend : ∀ {i line}, code[i]? = some line → line ≠ plain .return_ → i + 1 < code.length := by
    intro i line hline hne
    obtain ⟨hlt, -⟩ := List.getElem?_eq_some_iff.1 hline
    rcases Nat.lt_or_eq_of_le hlt with hnext | heq
    · exact hnext
    · rw [List.getLast?_eq_getElem?, show code.length - 1 = i by omega, hline] at hlast
      exact absurd (Option.some.inj hlast) hne
  refine ⟨?_, rfl, fun i name hline => ?_, fun i op hline => ?_, fun i hline => ?_⟩
  · rintro rfl
    cases hlast
  · obtain ⟨hzero, hnext⟩ := next?_label_eq (next?_heightAt hwalk hline)
    exact ⟨hend hline (by simp [plain]), hnext.trans hzero.symm⟩
  · obtain ⟨after, hafter, -, htarget, hfalls⟩ := next?_instruction_eq (next?_heightAt hwalk hline)
    refine ⟨after, hafter, fun hop => ⟨hend hline ?_, hfalls hop⟩, fun name hname => ?_⟩
    · rintro heq
      cases heq
      cases hop
    · have hmem : name ∈ targetsOf code :=
        List.mem_filterMap.2 ⟨_, List.mem_of_getElem? hline, hname⟩
      obtain ⟨j, hj⟩ := exists_place_of_mem_labelsOf hnodup (htargets name hmem)
      obtain ⟨hzero, -⟩ := next?_label_eq (next?_heightAt hwalk ((hj j).2 rfl))
      exact ⟨j, hj, hzero.trans (htarget name hname).symm⟩
  · obtain ⟨after, -, hreturn, -⟩ := next?_instruction_eq (next?_heightAt hwalk hline)
    exact hreturn rfl

end

/-! ### The code of functions -/

/-- The functions of a program by name, where each assembly function has one parameter. -/
structure Callable (p : Program) (N : Names) : Prop where
  functions_eq : FunctionTable.ofProgram p = .ok N.functions
  assembly : ∀ f ∈ p.functions, f.attributes.assembly = true → f.parameters.length = 1

section

variable {p : Program} {N : Names}
variable {f : FunctionDef}

-- The height behind a line of which the form is known is computed.
attribute [local simp] next?_label next?_instruction heightAfter? effect? accessEffect plainEffect
  fallsThrough target? number access plain numbered jump jumpTo

/-- A call takes the arguments and leaves the value. -/
theorem next?_callLine (hp : Callable p N) {callee : String} (hf : N.functions.get? callee = some f)
    (r h : Nat) : next? p r (h + f.parameters.length) (callLine N.functions callee) =
    some (h + 1) := by
  obtain ⟨hmem, -⟩ := FunctionTable.mem_of_get? hp.functions_eq hf
  cases hnative : f.attributes.assembly with
  | true =>
    have hcall : callLine N.functions callee = .instruction (.invokeNative callee) := by
      simp [callLine, isNative, hf, hnative]
    rw [hcall, hp.assembly f hmem hnative]
    exact next?_of_effect (h := h) (e := ⟨1, 1⟩) rfl rfl rfl
  | false =>
    have hcall : callLine N.functions callee = .instruction (.invoke callee) := by
      simp [callLine, isNative, hf, hnative]
    have hfunction : p.function? callee = some f := by
      rw [← FunctionTable.get?_of_ofProgram hp.functions_eq, hf]
    rw [hcall]
    exact next?_of_effect (h := h) (e := ⟨f.parameters.length, 1⟩)
      (by simp [effect?, hfunction]) rfl rfl

mutual

/-- The code of an expression leaves one value more. -/
theorem walk_exprCode (hp : Callable p N) (r : Nat) : ∀ {scope : List String} (e : Expr) (h : Nat),
    ExprScoped N scope e →
    walk p r h (exprCode N.functions e) = some (h + 1)
  | _, .literal value, h, _ => by simp [exprCode]
  | _, .lookup name, h, _ => by simp [exprCode]
  | _, .index name i, h, he => by
    have hi := walk_exprCode hp r i h (exprScoped_index.1 he).2
    simp [exprCode, hi]
  | _, .call callee arguments, h, he => by
    obtain ⟨⟨f, hf, hlength⟩, harguments⟩ := exprScoped_call.1 he
    have hall := walk_argumentsCode hp r arguments h harguments
    have hcall := next?_callLine hp hf r h
    rw [hlength] at hcall
    simp [exprCode, hall, hcall]
  | _, .binary op left right, h, he => by
    have hleft := walk_exprCode hp r left h (exprScoped_binary.1 he).1
    have hright := walk_exprCode hp r right (h + 1) (exprScoped_binary.1 he).2
    simp [exprCode, hleft, hright]
  | _, .compare op left right, h, he => by
    have hleft := walk_exprCode hp r left h (exprScoped_compare.1 he).1
    have hright := walk_exprCode hp r right (h + 1) (exprScoped_compare.1 he).2
    simp [exprCode, hleft, hright]
  | _, .unary .plus operand, h, he => by
    have hoperand := walk_exprCode hp r operand h (exprScoped_unary.1 he)
    simp [exprCode, hoperand]
  | _, .unary .minus operand, h, he => by
    have hoperand := walk_exprCode hp r operand (h + 1) (exprScoped_unary.1 he)
    simp [exprCode, hoperand]
  | _, .unary .bitNot operand, h, he => by
    have hoperand := walk_exprCode hp r operand h (exprScoped_unary.1 he)
    simp [exprCode, hoperand]
  | _, .not operand, h, he => by
    have hoperand := walk_exprCode hp r operand h (exprScoped_not.1 he)
    simp [exprCode, hoperand]

/-- The code of arguments leaves their values. -/
theorem walk_argumentsCode (hp : Callable p N) (r : Nat) :
    ∀ {scope : List String} (es : List Expr) (h : Nat), (∀ e ∈ es, ExprScoped N scope e) →
    walk p r h (argumentsCode N.functions es) = some (h + es.length)
  | _, [], h, _ => rfl
  | _, e :: es, h, hes => by
    obtain ⟨he, hes⟩ := List.forall_mem_cons.1 hes
    have hfirst := walk_exprCode hp r e h he
    have hrest := walk_argumentsCode hp r es (h + 1) hes
    simp [argumentsCode, hfirst, hrest, Nat.add_assoc, Nat.add_comm 1]

end

/-- The prologue of a function takes the arguments. -/
theorem walk_parametersCode (r h : Nat) (bs : List Binding) :
    walk p r (h + bs.length) (parametersCode bs) = some h := by
  induction bs with
  | nil => rfl
  | cons b rest ih => simp [parametersCode, ← Nat.add_assoc, ih]

mutual

/-- The code of a statement leaves the stack as empty as it was. -/
theorem walk_stmtCode (hp : Callable p N) :
    ∀ (scope : List String) (st : Stmt) (n : Nat), StmtScoped N scope st →
    walk p 1 0 (stmtCode N.functions st n) = some 0
  | scope, .declare b none, n, _ => rfl
  | scope, .declare b (some e), n, hst => by
    have he := walk_exprCode hp 1 e 0 (hst e rfl)
    simp [stmtCode, he]
  | scope, .assign target value, n, hst => by
    have hvalue := walk_exprCode hp 1 value 0 hst.2
    simp [stmtCode, hvalue]
  | scope, .assignIndexed target i value, n, hst => by
    have hi := walk_exprCode hp 1 i 0 hst.2.1
    have hvalue := walk_exprCode hp 1 value (0 + 1) hst.2.2
    simp [stmtCode, hi, hvalue]
  | scope, .increment target, n, _ => rfl
  | scope, .decrement target, n, _ => rfl
  | scope, .return_ none, n, _ => by simp [stmtCode]
  | scope, .return_ (some e), n, hst => by
    have he := walk_exprCode hp 1 e 0 (hst e rfl)
    simp [stmtCode, he]
  | scope, .expr e, n, hst => by
    have he := walk_exprCode hp 1 e 0 hst
    simp [stmtCode, he]
  | scope, .ifThen condition body, n, hst => by
    have hcondition := walk_exprCode hp 1 condition 0 hst.1
    have hbody := walk_blockCode hp scope body (n + 1) hst.2
    simp [stmtCode, hcondition, hbody]
  | scope, .ifElse condition body otherwise, n, hst => by
    have hcondition := walk_exprCode hp 1 condition 0 hst.1
    have hbody := walk_blockCode hp scope body (n + 1) hst.2.1
    have hotherwise := walk_blockCode hp (blockScope scope body) otherwise
      (n + 1 + blockLabels body + 1) hst.2.2
    simp [stmtCode, hcondition, hbody, hotherwise]
  | scope, .while_ condition body, n, hst => by
    have hcondition := walk_exprCode hp 1 condition 0 hst.1
    have hbody := walk_blockCode hp scope body (n + 2) hst.2
    simp [stmtCode, hcondition, hbody]
  | scope, .doWhile body condition, n, hst => by
    have hbody := walk_blockCode hp scope body (n + 1) hst.1
    have hcondition := walk_exprCode hp 1 condition 0 hst.2
    simp [stmtCode, hcondition, hbody]
  | scope, .loop body, n, hst => by
    have hbody := walk_blockCode hp scope body (n + 1) hst
    simp [stmtCode, hbody]

/-- The code of statements leaves the stack as empty as it was. -/
theorem walk_blockCode (hp : Callable p N) : ∀ (scope : List String) (body : List Stmt) (n : Nat),
    BlockScoped N scope body → walk p 1 0 (blockCode N.functions body n) = some 0
  | scope, [], n, _ => rfl
  | scope, st :: rest, n, hbody => by
    have hst := walk_stmtCode hp scope st n hbody.1
    have hrest := walk_blockCode hp (stmtScope scope st) rest (n + stmtLabels st) hbody.2
    simp [blockCode, hst, hrest]

end

/-- The code of a function can be walked through from its arguments on. -/
theorem walk_functionCode (hp : Callable p N) {body : List Stmt} (n : Nat)
    (hscoped : BlockScoped N (bindingsScope [] f.parameters.reverse) body) :
    walk p 1 f.parameters.length (functionCode N.functions f body n) = some 0 := by
  have hparameters := walk_parametersCode (p := p) 1 0 f.parameters.reverse
  rw [List.length_reverse, Nat.zero_add] at hparameters
  have hbody := walk_blockCode hp _ body n hscoped
  unfold functionCode
  split <;> simp [hparameters, hbody]

/-- The code of a function can be given heights that start with the number of its parameters. -/
theorem balanced_functionCode (hp : Callable p N) {body : List Stmt} (n : Nat)
    (hscoped : BlockScoped N (bindingsScope [] f.parameters.reverse) body) :
    Balanced p f.parameters.length 1 (functionCode N.functions f body n)
      (heightAt p 1 f.parameters.length (functionCode N.functions f body n)) := by
  refine balanced_of_walk (walk_functionCode hp n hscoped) ?_ ?_ ?_
  · simp [functionCode]
  · obtain ⟨ms, hms, hnodup, -⟩ := labelsWithin_blockCode N.functions body n
    rw [labelsOf_functionCode, hms]
    exact hnodup.map toString_injective
  · intro name hname
    rw [targetsOf_functionCode, mem_targetsOf_blockCode] at hname
    rwa [labelsOf_functionCode]

end

/-! ### The section for control that must not come there -/

/-- The section for control that must not come there would return with two values. -/
theorem balanced_trapSection (p : Program) :
    Balanced p 0 2 trapSection.code (heightAt p 2 0 trapSection.code) :=
  balanced_of_walk (k := 0) rfl rfl List.nodup_nil
    (by simp [trapSection, targetsOf, target?, number, plain])

/-- No heights let the section for control that must not come there return with one value. -/
theorem not_balanced_trapSection (p : Program) (arguments : Nat) (height : Nat → Nat) :
    ¬ Balanced p arguments 1 trapSection.code height := by
  intro h
  obtain ⟨after₀, hafter₀, hnext₀, -⟩ := h.instruction 0 (.number 1) rfl
  obtain ⟨after₁, hafter₁, hnext₁, -⟩ := h.instruction 1 (.invokeNative "do_exit") rfl
  obtain ⟨after₂, hafter₂, hnext₂, -⟩ := h.instruction 2 (.number 0) rfl
  have hone : height 1 = after₀ := (hnext₀ rfl).2
  have htwo : height 2 = after₁ := (hnext₁ rfl).2
  have hthree : height 3 = after₂ := (hnext₂ rfl).2
  have hreturn := h.return_ 3 rfl
  simp only [heightAfter?, effect?, Option.bind_some, Nat.zero_le, if_true, Nat.sub_zero,
    Option.some.injEq] at hafter₀ hafter₂
  simp only [heightAfter?, effect?, Option.bind_some] at hafter₁
  split at hafter₁
  · next hpops =>
    have hheld : 1 ≤ height 1 := hpops
    have hvalue : height 1 - 1 + 1 = after₁ := Option.some.inj hafter₁
    omega
  · cases hafter₁

end Bytecode

open Bytecode Fallible

/-- The sections of a program that compiles: the initial values, the code of functions whose names
are in scope, and what control finds where it must not come. -/
theorem Program.exists_of_mem_toBytecode {p : Program} {sections : List Section}
    (h : p.toBytecode = .ok sections) : ∃ N : Names,
      FunctionTable.ofProgram p = .ok N.functions ∧ ∀ s ∈ sections,
        s = globalsCode p ∨ s = trapSection ∨ ∃ f ∈ p.functions, ∃ body n,
        f.body = .statements body ∧
          BlockScoped N (bindingsScope [] f.parameters.reverse) body ∧
          s = functionSection N.functions f body n := by
  obtain ⟨N, graph, -, hfunctions, -, hscoped, rfl⟩ := Program.toBytecode_eq_ok h
  refine ⟨N, hfunctions, List.forall_mem_cons.2 ⟨.inl rfl, List.forall_mem_append.2 ⟨?_, ?_⟩⟩⟩
  · intro s hs
    obtain ⟨f, hf, body, n, hbody, rfl⟩ := exists_of_mem_functionSections (List.mem_filter.1 hs).1
    exact .inr (.inr ⟨f, hf, body, n, hbody, hscoped f hf body hbody, rfl⟩)
  · intro s hs
    unfold trapSections at hs
    split at hs
    · cases hs
    · exact .inr (.inl (List.mem_singleton.1 hs))

/-- The section of each function of a program can be given heights of the stack that start with the
number of parameters, agree along all edges and are one at each return. The section that is added
for control that must not come there can be given heights too, but would return with two values. -/
theorem Program.balanced_of_toBytecode {p : Program} {sections : List Section}
    (h : p.toBytecode = .ok sections)
    (hassembly : ∀ f ∈ p.functions, f.attributes.assembly = true → f.parameters.length = 1)
    {s : Section} (hs : s ∈ sections) (hkind : s.kind = .function) :
    (∃ f ∈ p.functions, f.name = s.name ∧ ¬ f.IsAssembly ∧
      ∃ height, Balanced p f.parameters.length 1 s.code height) ∨
    s = trapSection ∧ ∃ height, Balanced p 0 2 s.code height := by
  obtain ⟨N, hfunctions, hsections⟩ := Program.exists_of_mem_toBytecode h
  rcases hsections s hs with rfl | rfl | ⟨f, hf, body, n, hbody, hscoped, rfl⟩
  · cases hkind
  · exact .inr ⟨rfl, _, balanced_trapSection p⟩
  · exact .inl ⟨f, hf, rfl, FunctionDef.not_isAssembly_iff.2 ⟨body, hbody⟩, _,
      balanced_functionCode ⟨hfunctions, hassembly⟩ n hscoped⟩

namespace Program

theorem assembly_countdown :
    ∀ f ∈ countdown.functions, f.attributes.assembly = true → f.parameters.length = 1 := by
  decide

/-- The entry point of the countdown, which loops and calls a function, has heights that start with
its two parameters. -/
theorem balanced_of_toBytecode_countdown : countdown.toBytecode = .ok countdownSections ∧
    (∀ f ∈ countdown.functions, f.attributes.assembly = true → f.parameters.length = 1) ∧
    ∃ s ∈ countdownSections, s.kind = .function ∧ s.name = entryPoint ∧
      ∃ height, Balanced countdown 2 1 s.code height := by
  refine ⟨toBytecode_eq_countdownSections, assembly_countdown,
    countdownSections[2], by decide, rfl, rfl, ?_⟩
  rcases balanced_of_toBytecode toBytecode_eq_countdownSections assembly_countdown
    (s := countdownSections[2]) (by decide) rfl with ⟨f, hf, hname, -, hbalanced⟩ | ⟨htrap, -⟩
  · have hparameters : ∀ f ∈ countdown.functions, f.name = entryPoint →
        f.parameters.length = 2 := by
      decide
    rwa [hparameters f hf hname] at hbalanced
  · exact absurd (congrArg Section.name htrap) (by decide)

/-- The countdown has a section of the kind of a function to which no heights fit that are one at
each return: the one for control that must not come there. -/
theorem unbalanced_trap_countdown : countdown.toBytecode = .ok countdownSections ∧
    (∀ f ∈ countdown.functions, f.attributes.assembly = true → f.parameters.length = 1) ∧
    ∃ s ∈ countdownSections, s.kind = .function ∧
      ∀ arguments height, ¬ Balanced countdown arguments 1 s.code height :=
  ⟨toBytecode_eq_countdownSections, assembly_countdown, trapSection, by decide, rfl,
    not_balanced_trapSection countdown⟩

end Program

end Firestorm
