import Firestorm.Proofs.Bytecode.Activations

/-!
# The code of expressions

The code of an expression pushes its value, and the code of arguments pushes their values in order.

That a run of the stack machine simulates the interpreter is proved by induction on the bound of the
interpreter, which each of its functions lowers where it uses another. For each function there is a
statement of what the machine does beside it. This file has the statements, and derives those about
expressions from the statements for a smaller bound.

## Main definitions

* `Setting.Activation.EvalSimulated`, `Setting.Activation.CallSimulated`,
  `Setting.Activation.StmtSimulated`, `Setting.Activation.BlockSimulated`.

## Main results

* `Setting.evalSimulated_succ`, `Setting.argumentsSimulated_succ`: the code of expressions and
  arguments.
-/

namespace Firestorm.Setting

open Bytecode StackMachine

variable (σ : Setting)

/-! ### What the machine does beside the interpreter -/

/-- The activation is in front of some code, with the given words on the stack. -/
def Activation.Stands {σ : Setting} (a : σ.Activation) (k : Naming) (more : List CodeLine)
    (slots : Slots) (stack : List Word) (m : Machine) (c : Point) : Prop :=
  ∃ s, c = a.at_ k more slots s ∧ s.stack = stack ∧ σ.StateAgrees m s

/-- The code of an expression pushes its value. -/
def Activation.EvalSimulated {σ : Setting} (a : σ.Activation) (fuel : Nat) (e : Expr) : Prop :=
  ∀ {k : Naming} {P : String → Prop} {F : Firestorm.Frame} {m : Machine} {slots : Slots} {s : State}
    (more : List CodeLine), σ.Site a.scope k.locals → σ.ExprReady k.locals P e →
    σ.FrameAgrees a.scope P F slots → σ.StateAgrees m s →
    Simulates σ.image σ.header.unreachable (a.at_ k (exprCode σ.names.functions e ++ more) slots s)
      (Interpreter.eval σ.names.functions fuel F e) m fun value =>
        a.Stands k more slots (value :: s.stack)

/-- The code of arguments pushes their values in order. -/
def Activation.ArgumentsSimulated {σ : Setting} (a : σ.Activation) (fuel : Nat)
    (es : List Expr) : Prop :=
  ∀ {k : Naming} {P : String → Prop} {F : Firestorm.Frame} {m : Machine} {slots : Slots} {s : State}
    (more : List CodeLine), σ.Site a.scope k.locals → (∀ e ∈ es, σ.ExprReady k.locals P e) →
    σ.FrameAgrees a.scope P F slots → σ.StateAgrees m s →
    Simulates σ.image σ.header.unreachable
      (a.at_ k (argumentsCode σ.names.functions es ++ more) slots s)
      (Interpreter.evalArguments σ.names.functions fuel F es) m fun values =>
        a.Stands k more slots ((values.map Prod.snd).reverse ++ s.stack)

/-- An activation has returned a value. -/
def Returned (stack : List Word) (value : Word) (m : Machine) (c : Point) : Prop :=
  ∃ s, c = .ended (.returned s) ∧ s.stack = value :: stack ∧ σ.StateAgrees m s

/-- A function takes its arguments from the stack and leaves its value there. -/
def Activation.CallSimulated {σ : Setting} (a : σ.Activation) (fuel : Nat) : Prop :=
  ∀ {address : UInt64} {arguments : List (Option Datatype × Word)} {m : Machine} {s : State}
    (stack : List Word), σ.symbols.get? a.function.name = some address →
    s.stack = (arguments.map Prod.snd).reverse ++ stack → σ.StateAgrees m s →
    Simulates σ.image σ.header.unreachable (.running (.entering σ.image address) s)
      (Interpreter.call σ.names.functions fuel a.function arguments) m (σ.Returned stack)

/-- Behind statements the activation goes on with the variables of the interpreter, or it has
returned a value. Nothing is said about a return from a function that must not return. -/
def Activation.Executed {σ : Setting} (a : σ.Activation) (k : Naming) (more : List CodeLine)
    (stack : List Word) : Firestorm.Frame × Option Word → Machine → Point → Prop
  | (F, none), m, c => ∃ slots, σ.FrameAgrees a.scope (fun _ => True) F slots ∧
      a.Stands k more slots stack m c
  | (_, some value), m, c => a.function.attributes.noreturn = false → σ.Returned stack value m c

/-- The code of a statement does what the statement does. -/
def Activation.StmtSimulated {σ : Setting} (a : σ.Activation) (fuel : Nat) (st : Stmt) : Prop :=
  ∀ {before : List CodeLine} {n : Nat} {F : Firestorm.Frame} {m : Machine} {slots : Slots}
    {s : State}
    (more : List CodeLine), a.code = before ++ (stmtCode σ.names.functions st n ++ more) →
    StmtScoped σ.names (σ.naming before).locals st → st.parts ⊆ a.function.statements →
    σ.FrameAgrees a.scope (fun _ => True) F slots → σ.StateAgrees m s →
    Simulates σ.image σ.header.unreachable
      (a.at_ (σ.naming before) (stmtCode σ.names.functions st n ++ more) slots s)
      (Interpreter.execStmt σ.names.functions fuel F st) m
      (a.Executed (σ.naming (before ++ stmtCode σ.names.functions st n)) more s.stack)

/-- The code of statements does what the statements do. -/
def Activation.BlockSimulated {σ : Setting} (a : σ.Activation) (fuel : Nat)
    (body : List Stmt) : Prop :=
  ∀ {before : List CodeLine} {n : Nat} {F : Firestorm.Frame} {m : Machine} {slots : Slots}
    {s : State}
    (more : List CodeLine), a.code = before ++ (blockCode σ.names.functions body n ++ more) →
    BlockScoped σ.names (σ.naming before).locals body →
    Stmt.partsOf body ⊆ a.function.statements →
    σ.FrameAgrees a.scope (fun _ => True) F slots → σ.StateAgrees m s →
    Simulates σ.image σ.header.unreachable
      (a.at_ (σ.naming before) (blockCode σ.names.functions body n ++ more) slots s)
      (Interpreter.execBlock σ.names.functions fuel F body) m
      (a.Executed (σ.naming (before ++ blockCode σ.names.functions body n)) more s.stack)

/-! ### Expressions -/

section

variable {σ} {fuel : Nat} (a : σ.Activation)
variable {name : String}

theorem simulates_lookup {F : Firestorm.Frame} {m : Machine} (c : Point) :
    σ.Mimics c (Interpreter.lookup F name) m fun v m' c' =>
      m' = m ∧ c' = c ∧ Interpreter.variableOf F m name = some v := by
  have happly := Interpreter.lookup_apply F name m
  cases hv : Interpreter.variableOf F m name with
  | some v =>
    rw [hv] at happly
    exact .of_ok happly (.refl c) ⟨rfl, rfl, rfl⟩
  | none =>
    rw [hv] at happly
    exact .of_fault happly

theorem evalSimulated_literal (value : Literal) : a.EvalSimulated (fuel + 1) (.literal value) := by
  intro k P F m slots s more hsite hready hF hs
  rw [Interpreter.eval]
  refine .onHeap fun x heap hliteral => ?_
  have hheap : s.heap.literal value = .ok (x, heap) := by rw [hs.heap, hliteral]
  refine ⟨_, .next (step_literal ?_ hheap), _, rfl, rfl, (hs.withHeap heap).push x⟩
  rintro content rfl
  exact exprReady_literal.1 hready

theorem evalSimulated_lookup (name : String) : a.EvalSimulated (fuel + 1) (.lookup name) := by
  intro k P F m slots s more hsite hready hF hs
  obtain ⟨hnamed, hP⟩ := exprReady_lookup.1 hready
  rw [Interpreter.eval]
  refine (simulates_lookup _).bind ?_
  rintro v _ _ ⟨rfl, rfl, hv⟩
  have hlookup := lookup_slotOf hsite hnamed hF hs hP hv
  exact .pure (a.reaches_access (hlookup _ _) rfl) ⟨_, rfl, rfl, hs.push v.value⟩

/-! ### Elements of variables -/

section

variable {k : Naming} {F : Firestorm.Frame} {m : Machine} {slots : Slots} {s : State}
  (more : List CodeLine) {name : String} (hname : σ.Knows k.locals F slots name)

section

variable {i : Expr}
  (hi : σ.Mimics
    (a.at_ k (exprCode σ.names.functions i ++ (access .loadIndexed name :: more)) slots s)
    (Interpreter.eval σ.names.functions fuel F i) m fun x =>
      a.Stands k (access .loadIndexed name :: more) slots (x :: s.stack))
include hname hi

/-- The code of an access to an element reads the variable behind the index. -/
theorem simulates_elementBehind :
    σ.Mimics
      (a.at_ k (exprCode σ.names.functions i ++ (access .loadIndexed name :: more)) slots s)
      (Interpreter.elementBehind σ.names.functions fuel F name i) m fun value =>
        a.Stands k more slots (value :: s.stack) := by
  refine hi.bind ?_
  rintro x m' _ ⟨s', rfl, hstack, hs'⟩
  refine (simulates_lookup _).bind ?_
  rintro v _ _ ⟨rfl, rfl, hv⟩
  have hlookup := hname hs' hv
  have hpop := State.pop_of_stack hstack
  unfold Interpreter.element
  by_cases harray : v.datatype.array
  · rw [if_pos harray]
    refine .readCell fun value hread => ⟨_, a.reaches_access (hlookup _ _) ?_,
      _, rfl, rfl, (hs'.withStack s.stack).push value⟩
    have hread' : s'.heap.read v.value x = .ok value := hs'.heap ▸ hread
    simp [performAccess, hpop, cellOf, harray, hread', Except.toOption]
  · rw [if_neg harray]
    refine .pure (a.reaches_access (hlookup _ _) ?_)
      ⟨_, rfl, rfl, (hs'.withStack s.stack).push (Word.bitTest v.value x)⟩
    simp [performAccess, hpop, cellOf, harray]

/-- The code of an access to an element does what the interpreter does if the index leaves the
variable as it was. -/
theorem simulates_index
    (hleaves : ∀ v x m', Interpreter.variableOf F m name = some v →
      Interpreter.eval σ.names.functions fuel F i m = (.ok x, m') →
        Interpreter.variableOf F m' name = some v) :
    σ.Mimics
      (a.at_ k (exprCode σ.names.functions i ++ (access .loadIndexed name :: more)) slots s)
      (Interpreter.eval σ.names.functions (fuel + 1) F (.index name i)) m fun value =>
        a.Stands k more slots (value :: s.stack) := by
  cases hv : Interpreter.variableOf F m name with
  | none =>
    exact .of_fault (Interpreter.eval_index_of_none hv)
  | some v =>
    have heq := Interpreter.eval_index_eq hv fun x m' => hleaves v x m' hv
    exact (simulates_elementBehind a more hname hi).congr heq.symm

end

section

variable {i e : Expr}
  (hoperands : σ.Mimics
    (a.at_ k (exprCode σ.names.functions i ++ (exprCode σ.names.functions e ++
      (access .assignIndexed name :: more))) slots s)
    (Interpreter.evalBoth σ.names.functions fuel F i e) m fun p =>
      a.Stands k (access .assignIndexed name :: more) slots (p.2 :: p.1 :: s.stack))
include hname hoperands

/-- The code of an assignment to an element reads the variable behind the index and the value. -/
theorem simulates_assignBehind :
    σ.Mimics
      (a.at_ k (exprCode σ.names.functions i ++ (exprCode σ.names.functions e ++
        (access .assignIndexed name :: more))) slots s)
      (Interpreter.assignBehind σ.names.functions fuel F name i e) m fun result m' c =>
        result = (F, none) ∧ a.Stands k more slots s.stack m' c := by
  refine hoperands.bind ?_
  rintro ⟨x, y⟩ m' _ ⟨s', rfl, hstack, hs'⟩
  refine (simulates_lookup _).bind ?_
  rintro v _ _ ⟨rfl, rfl, hv⟩
  have hlookup := hname hs' hv
  unfold Interpreter.assignElement
  by_cases harray : v.datatype.array
  · simp only [harray, Bool.not_true, Bool.false_eq_true, if_false]
    refine Simulates.bind (Q := fun _ => a.Stands k more slots s.stack)
      (.onHeap_map fun heap hwrite => ⟨_, a.reaches_access (hlookup _ _) ?_,
        { s' with stack := s.stack, heap := heap }, rfl, rfl,
        (hs'.withStack s.stack).withHeap heap⟩) ?_
    · rw [element_cellOf, ← hs'.heap] at hwrite
      change s'.heap.write (cellOf v).value x _ = _ at hwrite
      simp only [performAccess, State.pop, hstack, Option.bind_eq_bind, Option.bind_some, hwrite,
        Except.toOption]
      rfl
    · exact fun _ _ _ hstands => .pure (.refl _) ⟨rfl, hstands⟩
  · simp only [harray]
    exact .of_fault rfl

/-- The code of an assignment to an element does what the interpreter does if the index and the
value leave the variable as it was. -/
theorem simulates_assignIndexed
    (hleaves : ∀ v p m', Interpreter.variableOf F m name = some v →
      Interpreter.evalBoth σ.names.functions fuel F i e m = (.ok p, m') →
        Interpreter.variableOf F m' name = some v) :
    σ.Mimics
      (a.at_ k (exprCode σ.names.functions i ++ (exprCode σ.names.functions e ++
        (access .assignIndexed name :: more))) slots s)
      (Interpreter.execStmt σ.names.functions (fuel + 1) F (.assignIndexed name i e)) m
      fun result m' c => result = (F, none) ∧ a.Stands k more slots s.stack m' c := by
  cases hv : Interpreter.variableOf F m name with
  | none =>
    exact .of_fault (Interpreter.execStmt_assignIndexed_of_none hv)
  | some v =>
    by_cases harray : v.datatype.array
    · have heq := Interpreter.execStmt_assignIndexed_eq hv harray fun p m' => hleaves v p m' hv
      exact (simulates_assignBehind a more hname hoperands).congr heq.symm
    · exact .of_fault (Interpreter.execStmt_assignIndexed_of_scalar hv (by simpa using harray))

end

end

variable (hE : ∀ e, a.EvalSimulated fuel e)

section

variable {k : Naming} {P : String → Prop} {F : Firestorm.Frame} {m : Machine} {slots : Slots}
  {s : State} (more : List CodeLine) (hsite : σ.Site a.scope k.locals)
  (hF : σ.FrameAgrees a.scope P F slots)
include hE hsite hF

/-- An operand is on the stack when the rest of an expression is computed. -/
theorem simulates_operand {e : Expr} {α : Type} {f : Word → Exec α} {Q : α → Machine → Point → Prop}
    (hs : σ.StateAgrees m s) (he : σ.ExprReady k.locals P e)
    (hf : ∀ x m' s', Interpreter.eval σ.names.functions fuel F e m = (.ok x, m') →
      s'.stack = x :: s.stack → σ.StateAgrees m' s' →
      σ.Mimics (a.at_ k more slots s') (f x) m' Q) :
    σ.Mimics (a.at_ k (exprCode σ.names.functions e ++ more) slots s)
      (Interpreter.eval σ.names.functions fuel F e >>= f) m Q := by
  refine (hE e more hsite he hF hs).bind_of_eq ?_
  rintro x m' _ heval ⟨s', rfl, hstack, hs'⟩
  exact hf x m' s' heval hstack hs'

/-- Two operands are on the stack when the rest of an expression is computed. -/
theorem simulates_operands {left right : Expr} {α : Type} {f : Word → Word → Exec α}
    {Q : α → Machine → Point → Prop} (hs : σ.StateAgrees m s) (hleft : σ.ExprReady k.locals P left)
    (hright : σ.ExprReady k.locals P right)
    (hf : ∀ x y m₁ m₂ s', Interpreter.eval σ.names.functions fuel F left m = (.ok x, m₁) →
      Interpreter.eval σ.names.functions fuel F right m₁ = (.ok y, m₂) →
      s'.stack = y :: x :: s.stack → σ.StateAgrees m₂ s' →
      σ.Mimics (a.at_ k more slots s') (f x y) m₂ Q) :
    σ.Mimics
      (a.at_ k (exprCode σ.names.functions left ++ (exprCode σ.names.functions right ++ more))
        slots s)
      (do
        let x ← Interpreter.eval σ.names.functions fuel F left
        let y ← Interpreter.eval σ.names.functions fuel F right
        f x y) m Q := by
  refine simulates_operand a hE _ hsite hF hs hleft fun x m₁ s₁ hx hstack₁ hs₁ => ?_
  refine simulates_operand a hE _ hsite hF hs₁ hright fun y m₂ s₂ hy hstack₂ hs₂ => ?_
  exact hf x y m₁ m₂ s₂ hx hy (by rw [hstack₂, hstack₁]) hs₂

end

section

include hE

theorem evalSimulated_index (name : String) (i : Expr) :
    a.EvalSimulated (fuel + 1) (.index name i) := by
  intro k P F m slots s more hsite hready hF hs
  obtain ⟨⟨hnamed, hP, hsteady⟩, hi⟩ := exprReady_index.1 hready
  rw [exprCode, List.append_assoc]
  refine simulates_index a more (hsite.knows hnamed hF hP) (hE i _ hsite hi hF hs)
    fun v x m' hv hx => ?_
  exact hs.variableOf_eq hv fun hname => hsteady hname _ σ.compiled.functions_eq _ _ _ _ _ hx

theorem evalSimulated_binary (op : BinaryOp) (left right : Expr) :
    a.EvalSimulated (fuel + 1) (.binary op left right) := by
  intro k P F m slots s more hsite hready hF hs
  obtain ⟨hleft, hright⟩ := exprReady_binary.1 hready
  rw [Interpreter.eval, exprCode, List.append_assoc, List.append_assoc]
  refine simulates_operands a hE _ hsite hF hs hleft hright fun x y _ m' s' _ _ hstack hs' => ?_
  cases heval : op.eval x y with
  | none => exact .fault _
  | some value =>
    refine .pure (a.reaches_plain ?_)
      ⟨_, rfl, rfl, (hs'.withStack s.stack).push value⟩
    simp [performPlain, State.pop, hstack, heval]

theorem evalSimulated_compare (op : CompareOp) (left right : Expr) :
    a.EvalSimulated (fuel + 1) (.compare op left right) := by
  intro k P F m slots s more hsite hready hF hs
  obtain ⟨hleft, hright⟩ := exprReady_compare.1 hready
  rw [Interpreter.eval, exprCode, List.append_assoc, List.append_assoc]
  refine simulates_operands a hE _ hsite hF hs hleft hright fun x y _ m' s' _ _ hstack hs' => ?_
  refine .pure (a.reaches_plain ?_)
    ⟨_, rfl, rfl, (hs'.withStack s.stack).push (Word.ofBool (op.eval x y))⟩
  simp [performPlain, State.pop, hstack]

theorem evalSimulated_unary (op : UnaryOp) (operand : Expr) :
    a.EvalSimulated (fuel + 1) (.unary op operand) := by
  intro k P F m slots s more hsite hready hF hs
  have hoperand := exprReady_unary.1 hready
  rw [Interpreter.eval]
  cases op with
  | plus =>
    refine simulates_operand a hE _ hsite hF hs hoperand fun x m' s' _ hstack hs' => ?_
    exact .pure (.refl _) ⟨s', rfl, hstack, hs'⟩
  | minus =>
    rw [exprCode, List.append_assoc, List.append_assoc]
    refine .of_reaches (a.reaches_number 0) ?_
    refine simulates_operand a hE _ hsite hF (hs.push 0) hoperand fun x m' s' _ hstack hs' => ?_
    refine .pure (a.reaches_plain ?_)
      ⟨_, rfl, rfl, (hs'.withStack s.stack).push (-x)⟩
    simp [performPlain, State.pop, hstack, State.push, BinaryOp.eval]
  | bitNot =>
    rw [exprCode, List.append_assoc]
    refine simulates_operand a hE _ hsite hF hs hoperand fun x m' s' _ hstack hs' => ?_
    refine .pure (a.reaches_plain ?_)
      ⟨_, rfl, rfl, (hs'.withStack s.stack).push (~~~x)⟩
    simp [performPlain, State.pop, hstack]

theorem evalSimulated_not (operand : Expr) : a.EvalSimulated (fuel + 1) (.not operand) := by
  intro k P F m slots s more hsite hready hF hs
  rw [Interpreter.eval, exprCode, List.append_assoc]
  refine simulates_operand a hE _ hsite hF hs (exprReady_not.1 hready)
    fun x m' s' _ hstack hs' => ?_
  refine .pure (a.reaches_plain ?_)
    ⟨_, rfl, rfl, (hs'.withStack s.stack).push (Word.ofBool (x == 0))⟩
  simp [performPlain, State.pop, hstack]

end

/-! ### Calls -/

section

variable {k : Naming} {m : Machine} {slots : Slots} {s : State} (more : List CodeLine)
variable {stack : List Word}

theorem perform_invokeNative (hname : name ∈ natives) {argument : Word}
    (hstack : s.stack = argument :: stack) (frame : StackMachine.Frame) :
    perform σ.image (k.command σ.symbols a.function.name (.invokeNative name)) frame s =
      performNative name argument frame { s with stack := stack } := by
  have hindex : ∀ name ∈ natives,
      natives[(UInt64.ofNat (natives.idxOf name)).toNat]? = some name := by
    decide
  rw [Naming.command, perform, State.pop_of_stack hstack, Option.bind_eq_bind, Option.bind_some,
    hindex name hname]
  rfl

/-- The machine provides the functions that the interpreter provides. -/
theorem simulates_native {argument : Word} (hstack : s.stack = argument :: stack)
    (hs : σ.StateAgrees m s) : σ.Mimics
      (a.at_ k (.instruction (.invokeNative name) :: more) slots s)
      (Interpreter.native name [argument]) m fun value =>
        a.Stands k more slots (value :: stack) := by
  have hs' := hs.withStack stack
  unfold Interpreter.native
  split
  · have hperform := perform_invokeNative a (k := k) (by decide : "printc" ∈ natives) hstack
    refine Simulates.bind (Q := fun _ => a.Stands k more slots (0 :: stack))
      (.print (a.reaches_instruction (hperform _)) ?_) ?_
    · exact ⟨_, rfl, rfl, hs.heap, congrArg (Array.push · argument.toUInt64.toUInt8) hs.output,
        hs.globals⟩
    · exact fun _ _ _ hstands => .pure (.refl _) hstands
  · refine .onHeap fun pointer heap hallocate => ⟨_, a.reaches_instruction ?_,
      _, rfl, rfl, (hs'.withHeap heap).push pointer⟩
    have hallocate' : s.heap.allocate argument = .ok (pointer, heap) := hs.heap ▸ hallocate
    rw [perform_invokeNative a (by decide) hstack]
    simp only [performNative, hallocate', Except.toOption]
    rfl
  · refine Simulates.bind (Q := fun _ => a.Stands k more slots (0 :: stack))
      (.onHeap_map fun heap hdeallocate => ⟨_, a.reaches_instruction ?_, _, rfl, rfl,
        (hs'.withHeap heap).push 0⟩) ?_
    · have hdeallocate' : s.heap.deallocate argument = .ok heap := hs.heap ▸ hdeallocate
      rw [perform_invokeNative a (by decide) hstack]
      simp only [performNative, hdeallocate', Except.toOption]
      rfl
    · exact fun _ _ _ hstands => .pure (.refl _) hstands
  · have hperform := perform_invokeNative a (k := k) (by decide : "do_exit" ∈ natives) hstack
    exact .exit (.exit ((a.step_instruction (i := .invokeNative "do_exit") (by simp)).trans
      (hperform _))) hs.output
  · exact .fault _

theorem simulates_staticDatatype {F : Firestorm.Frame} (functions : FunctionTable) (e : Expr)
    (c : Point) :
    σ.Mimics c (Interpreter.staticDatatype functions F e) m fun _ m' c' =>
      m' = m ∧ c' = c := by
  cases e with
  | lookup name | index name _ =>
    refine (simulates_lookup c).bind ?_
    rintro v _ _ ⟨rfl, rfl, -⟩
    exact .pure (.refl _) ⟨rfl, rfl⟩
  | call callee arguments =>
    refine Simulates.bind (Q := fun _ m' c' => m' = m ∧ c' = c)
      (.ofSymbols fun _ _ => ⟨c, .refl c, rfl, rfl⟩) ?_
    rintro f _ _ ⟨rfl, rfl⟩
    exact .pure (.refl _) ⟨rfl, rfl⟩
  | literal _ | binary _ _ _ | compare _ _ _ | unary _ _ | not _ => exact .pure (.refl _) ⟨rfl, rfl⟩

theorem simulates_call_native {g : FunctionDef} (hone : g.parameters.length = 1)
    (hassembly : g.IsAssembly) {arguments : List (Option Datatype × Word)}
    (hstack : s.stack = (arguments.map Prod.snd).reverse ++ stack) (hs : σ.StateAgrees m s) :
    σ.Mimics
      (a.at_ k (.instruction (.invokeNative g.name) :: more) slots s)
      (Interpreter.call σ.names.functions fuel g arguments) m fun value =>
        a.Stands k more slots (value :: stack) := by
  obtain ⟨text, hbody⟩ := hassembly
  cases fuel with
  | zero => exact .outOfFuel
  | succ fuel =>
    rw [Interpreter.call]
    split
    · exact .fault _
    · next hlength =>
      obtain ⟨argument, rfl⟩ : ∃ argument, arguments = [argument] :=
        List.length_eq_one_iff.1 (by rw [← hone]; exact (not_not.1 hlength).symm)
      split
      · exact .fault _
      · rw [hbody]
        exact simulates_native a more hstack hs

end

theorem argumentsSimulated_succ (hE : ∀ e, a.EvalSimulated fuel e)
    (hA : ∀ es, a.ArgumentsSimulated fuel es) (es : List Expr) :
    a.ArgumentsSimulated (fuel + 1) es := by
  intro k P F m slots s more hsite hes hF hs
  cases es with
  | nil => exact .pure (.refl _) ⟨s, rfl, rfl, hs⟩
  | cons e rest =>
    obtain ⟨he, hrest⟩ := List.forall_mem_cons.1 hes
    rw [argumentsCode, List.append_assoc, Interpreter.evalArguments]
    refine (simulates_staticDatatype _ e _).bind ?_
    rintro d _ _ ⟨rfl, rfl⟩
    refine simulates_operand a hE _ hsite hF hs he fun x m' s' _ hstack hs' => ?_
    refine (hA rest more hsite hrest hF hs').bind ?_
    rintro values m'' _ ⟨s'', rfl, hstack', hs''⟩
    exact .pure (.refl _) ⟨s'', rfl, by simp [hstack', hstack], hs''⟩

theorem evalSimulated_call (hσ : σ.program.Consistent) (hA : ∀ es, a.ArgumentsSimulated fuel es)
    (hC : ∀ b : σ.Activation, b.CallSimulated fuel) (callee : String) (arguments : List Expr) :
    a.EvalSimulated (fuel + 1) (.call callee arguments) := by
  intro k P F m slots s more hsite hready hF hs
  obtain ⟨⟨g, hg, hget, rfl, hreachable, -⟩, harguments⟩ := exprReady_call.1 hready
  rw [Interpreter.eval, exprCode, List.append_assoc]
  refine Simulates.bind (Q := fun f m' c => g = f ∧ m' = m ∧ c = a.at_ k _ slots s)
    (.ofSymbols fun f hf => ⟨_, .refl _, ?_, rfl, rfl⟩) ?_
  · obtain ⟨hf, -⟩ := FunctionTable.resolve_eq_ok.1 hf
    exact Option.some_inj.1 (hget.symm.trans hf)
  rintro _ _ _ ⟨rfl, rfl, rfl⟩
  refine (hA arguments _ hsite harguments hF hs).bind ?_
  rintro values m' _ ⟨s', rfl, hstack, hs'⟩
  by_cases hassembly : g.IsAssembly
  · have hnative := (σ.compiled.isNative_iff σ.worded).2 ⟨g, hg, rfl, hassembly⟩
    rw [callLine, if_pos hnative]
    exact simulates_call_native a more (hσ.assembly g hg hassembly) hassembly hstack hs'
  · have hnative : isNative σ.names.functions g.name = false := by
      simpa [isNative, hget] using mt (σ.worded.functions g hg).assembly.1 hassembly
    obtain ⟨callee, rfl⟩ := σ.exists_activation hg hreachable hassembly
    obtain ⟨address, haddress, -⟩ := callee.lies.entry
    rw [callLine, hnative]
    have hcallee := hC callee s.stack haddress hstack hs'
    have hstep : step σ.image
        (a.frame k (.instruction (.invoke callee.function.name) :: more) slots) s' =
        some (.call address (a.frame k more slots) s') := by
      rw [a.step_instruction (i := .invoke callee.function.name) (by simp), Naming.command]
      exact congrArg (fun target => some (Action.call target _ _))
        (congrArg (Option.getD · 0) haddress)
    refine .call hstep (hcallee.mono ?_)
    rintro value m'' _ ⟨s'', rfl, hstack'', hs''⟩
    exact ⟨s'', rfl, s'', rfl, hstack'', hs''⟩

theorem evalSimulated_succ (hσ : σ.program.Consistent) (hE : ∀ e, a.EvalSimulated fuel e)
    (hA : ∀ es, a.ArgumentsSimulated fuel es) (hC : ∀ b : σ.Activation, b.CallSimulated fuel) :
    ∀ e, a.EvalSimulated (fuel + 1) e := by
  intro e
  cases e with
  | literal value => exact evalSimulated_literal a value
  | lookup name => exact evalSimulated_lookup a name
  | index name i => exact evalSimulated_index a hE name i
  | call callee arguments => exact evalSimulated_call a hσ hA hC callee arguments
  | binary op left right => exact evalSimulated_binary a hE op left right
  | compare op left right => exact evalSimulated_compare a hE op left right
  | unary op operand => exact evalSimulated_unary a hE op operand
  | not operand => exact evalSimulated_not a hE operand

end

end Firestorm.Setting
