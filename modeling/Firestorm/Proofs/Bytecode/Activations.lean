import Firestorm.Proofs.Bytecode.Agreement

/-!
# Activations of functions

An activation of a function works through the code of the function in the image. At each place of
the code it knows the locals that have been declared before it in the text.

## Main definitions

* `Setting.Activation`, `Setting.ExprReady`.

## Main results

* `Setting.Activation.place`, `Setting.Activation.exprReady`.
* `Setting.Activation.reaches_instruction`: an activation performs the instruction in front of it.
-/

namespace Firestorm

open Bytecode StackMachine

variable {i : Instruction}

/-! ### Code in an image -/

namespace Bytecode

variable {image : List UInt8} {symbols : SymbolValues} {sectionName : String} {k : Naming}
  {more : List CodeLine} {tail : List UInt8} {slots : Slots} {noreturn : Bool} {s : State}

/-- An activation performs the instruction that it stands in front of. -/
theorem step_codeBytes
    (hsize : ∀ content, i = .string content → (Text.utf8 content.toList).length < 2 ^ 64) :
    step image ⟨codeBytes symbols sectionName k (.instruction i :: more) ++ tail, slots,
      noreturn⟩ s = perform image (k.command symbols sectionName i)
        ⟨codeBytes symbols sectionName (k.after (.instruction i)) more ++ tail, slots,
          noreturn⟩ s := by
  unfold step
  rw [codeBytes_instruction, List.append_assoc, fetch_instruction _ _ _ _ _ hsize]
  rfl

/-- The code of a constant pushes its value. -/
theorem step_literal {l : Literal} {value : Word} {heap : Heap}
    (hsize : ∀ content, l = .str content → (Text.utf8 content.toList).length < 2 ^ 64)
    (h : s.heap.literal l = .ok (value, heap)) :
    step image ⟨codeBytes symbols sectionName k (literal l :: more) ++ tail, slots, noreturn⟩ s =
      some (.next ⟨codeBytes symbols sectionName k more ++ tail, slots, noreturn⟩
        ({ s with heap := heap }.push value)) := by
  cases l with
  | number n =>
    cases h
    exact step_codeBytes (by simp)
  | chr byte =>
    cases h
    exact step_codeBytes (by simp)
  | str content =>
    refine (step_codeBytes (i := .string content) fun _ heq => hsize _ (by cases heq; rfl)).trans ?_
    have hintern : s.heap.intern content = .ok (value, heap) := h
    simp only [Naming.command, perform, hintern, Except.toOption]
    rfl

end Bytecode

namespace Setting

variable {name : String}

/-- The names declared behind some code of a function. -/
def naming (σ : Setting) (before : List CodeLine) : Naming := Naming.through ⟨σ.globals, []⟩ before

theorem naming_append (σ : Setting) (before code : List CodeLine) :
    σ.naming (before ++ code) = (σ.naming before).through code :=
  Naming.through_append ..

/-- The machine gets from one point of a run to another. -/
abbrev RunsTo (σ : Setting) : Point → Point → Prop :=
  StackMachine.Reaches σ.image σ.header.unreachable

/-- What the machine does from a point of a run on simulates a computation. -/
abbrev Mimics {α : Type} (σ : Setting) :
    Point → Exec α → Machine → (α → Machine → Point → Prop) → Prop :=
  StackMachine.Simulates σ.image σ.header.unreachable

/-- A function of the program that can be reached, and where its code lies in the image. -/
structure Activation (σ : Setting) where
  function : FunctionDef
  body : List Stmt
  label : Nat
  tail : List UInt8
  mem : function ∈ σ.program.functions
  reachable : σ.program.Reachable function.name
  body_eq : function.body = .statements body
  lies : SectionAt σ.image σ.symbols σ.globals
    (functionSection σ.names.functions function body label) tail

theorem exists_activation (σ : Setting) {f : FunctionDef} (hf : f ∈ σ.program.functions)
    (hreachable : σ.program.Reachable f.name) (h : ¬ f.IsAssembly) :
    ∃ a : σ.Activation, a.function = f := by
  obtain ⟨body, hbody⟩ := FunctionDef.not_isAssembly_iff.1 h
  obtain ⟨label, tail, hlies⟩ := σ.linked.functions f hf hreachable body hbody
  exact ⟨⟨f, body, label, tail, hf, hreachable, hbody, hlies⟩, rfl⟩

namespace Activation

variable {σ : Setting} (a : σ.Activation)

/-- The code of the function. -/
def code : List CodeLine := functionCode σ.names.functions a.function a.body a.label

/-- The locals of the function. -/
def scope : List String := functionScope a.function a.body

/-- The activation in front of some code. -/
def frame (k : Naming) (code : List CodeLine) (slots : Slots) : StackMachine.Frame :=
  ⟨codeBytes σ.symbols a.function.name k code ++ a.tail, slots, a.function.attributes.noreturn⟩

/-- The point of a run in front of some code. -/
def at_ (k : Naming) (code : List CodeLine) (slots : Slots) (s : State) : Point :=
  .running (a.frame k code slots) s

variable {k : Naming} {more : List CodeLine} {slots : Slots} {s s' : State}

theorem frame_numbered (n : Nat) :
    a.frame k (numbered n :: more) slots = a.frame k more slots := by
  rw [frame, codeBytes, Naming.codeItems, itemBytes_append, Naming.after_numbered]
  rfl

/-- An activation performs the instruction that it stands in front of. -/
theorem step_instruction
    (hsize : ∀ content, i = .string content → (Text.utf8 content.toList).length < 2 ^ 64) :
    step σ.image (a.frame k (.instruction i :: more) slots) s =
      perform σ.image (k.command σ.symbols a.function.name i)
        (a.frame (k.after (.instruction i)) more slots) s :=
  step_codeBytes hsize

theorem reaches_instruction {k' : Naming} {more' : List CodeLine} {slots' : Slots}
    (h : perform σ.image (k.command σ.symbols a.function.name i)
      (a.frame (k.after (.instruction i)) more slots) s = some (.next (a.frame k' more' slots') s'))
    (hsize : ∀ content, i = .string content →
      (Text.utf8 content.toList).length < 2 ^ 64 := by simp) :
    σ.RunsTo (a.at_ k (.instruction i :: more) slots s)
      (a.at_ k' more' slots' s') :=
  .next ((a.step_instruction hsize).trans h)

theorem reaches_number (value : Word) :
    σ.RunsTo (a.at_ k (number value :: more) slots s)
      (a.at_ k more slots (s.push value)) :=
  a.reaches_instruction rfl

theorem reaches_access {access : Access} {cell : Cell} {slots' : Slots}
    (hlookup : lookup (a.frame k more slots) s (σ.slotOf k.locals name) = some cell)
    (h : performAccess access cell (σ.slotOf k.locals name) (a.frame k more slots) s =
      some (.next (a.frame k more slots') s')) :
    σ.RunsTo (a.at_ k (Bytecode.access access name :: more) slots s)
      (a.at_ k more slots' s') := by
  refine a.reaches_instruction ?_
  change ((lookup (a.frame k more slots) s (σ.slotOf k.locals name)).bind fun cell =>
    performAccess access cell (σ.slotOf k.locals name) (a.frame k more slots) s) = _
  rw [hlookup, Option.bind_some, h]

theorem reaches_plain {op : PlainOp}
    (h : performPlain op (a.frame k more slots) s = some (.next (a.frame k more slots) s')) :
    σ.RunsTo (a.at_ k (plain op :: more) slots s)
      (a.at_ k more slots s') :=
  a.reaches_instruction h

end Activation

/-! ### Expressions that can be evaluated -/

variable (σ : Setting)

/-- What an expression needs for its own evaluation, not for that of its parts, where the given
locals are declared and the given variables hold their values. -/
def Ready (locals : List String) (P : String → Prop) : Expr → Prop
  | .literal (.str content) => (Text.utf8 content.toList).length < 2 ^ 64
  | .lookup name => Named σ.names locals name ∧ P name
  | .index name i =>
    Named σ.names locals name ∧ P name ∧ (name ∈ σ.globals → σ.program.Steady name i)
  | .call callee arguments => ∃ g ∈ σ.program.functions, σ.names.functions.get? callee = some g ∧
      g.name = callee ∧ σ.program.Reachable callee ∧ g.parameters.length = arguments.length
  | _ => True

/-- All parts of an expression have what they need. -/
def ExprReady (locals : List String) (P : String → Prop) (e : Expr) : Prop :=
  ∀ part ∈ e.parts, σ.Ready locals P part

section

variable {σ} {locals : List String} {P : String → Prop} {name : String}
  {i left right operand : Expr}

-- The equations are generated once, in front of the proofs that open them.
attribute [local simp] Ready

@[simp] theorem exprReady_literal {value : Literal} :
    σ.ExprReady locals P (.literal value) ↔ σ.Ready locals P (.literal value) := by
  simp [ExprReady, Expr.parts]

@[simp] theorem exprReady_lookup :
    σ.ExprReady locals P (.lookup name) ↔ Named σ.names locals name ∧ P name := by
  simp [ExprReady, Expr.parts]

@[simp] theorem exprReady_index : σ.ExprReady locals P (.index name i) ↔
    (Named σ.names locals name ∧ P name ∧ (name ∈ σ.globals → σ.program.Steady name i)) ∧
      σ.ExprReady locals P i := by
  simp [ExprReady, Expr.parts]

@[simp] theorem exprReady_call {arguments : List Expr} :
    σ.ExprReady locals P (.call name arguments) ↔
    σ.Ready locals P (.call name arguments) ∧ ∀ e ∈ arguments, σ.ExprReady locals P e := by
  simp only [ExprReady, Expr.parts, List.forall_mem_cons, Expr.partsOf_eq_flatMap, List.mem_flatMap,
    forall_exists_index, and_imp]
  exact and_congr_right fun _ =>
    ⟨fun h e he part hpart => h part e he hpart, fun h part e he hpart => h e he part hpart⟩

@[simp] theorem exprReady_binary {op : BinaryOp} : σ.ExprReady locals P (.binary op left right) ↔
    σ.ExprReady locals P left ∧ σ.ExprReady locals P right := by
  simp [ExprReady, Expr.parts, or_imp, forall_and]

@[simp] theorem exprReady_compare {op : CompareOp} : σ.ExprReady locals P (.compare op left right) ↔
    σ.ExprReady locals P left ∧ σ.ExprReady locals P right := by
  simp [ExprReady, Expr.parts, or_imp, forall_and]

@[simp] theorem exprReady_unary {op : UnaryOp} :
    σ.ExprReady locals P (.unary op operand) ↔ σ.ExprReady locals P operand := by
  simp [ExprReady, Expr.parts]

@[simp] theorem exprReady_not :
    σ.ExprReady locals P (.not operand) ↔ σ.ExprReady locals P operand := by
  simp [ExprReady, Expr.parts]

end

/-! ### Places in the code of a function -/

namespace Activation

variable {σ : Setting} (a : σ.Activation)

theorem naming_code : (σ.naming a.code).locals = a.scope := by
  unfold naming code functionCode
  split <;> simp [scope, functionScope]

theorem length_code_lt :
    (codeBytes σ.symbols a.function.name ⟨σ.globals, []⟩ a.code).length < 2 ^ 63 :=
  a.lies.length_le.trans_lt σ.length_image

theorem mem_locals_of_mem_scope (h : name ∈ a.scope) : ∃ b ∈ a.function.locals, b.name = name := by
  rw [← a.naming_code] at h
  rcases Naming.exists_of_mem_through h with h | ⟨b, hb, rfl⟩
  · cases h
  · exact ⟨b, (declaredOf_functionCode _ a.label a.body_eq b).1 hb, rfl⟩

theorem notMem_globals (hσ : σ.program.Separated) (h : name ∈ a.scope) : name ∉ σ.globals := by
  obtain ⟨b, hb, rfl⟩ := a.mem_locals_of_mem_scope h
  rw [σ.mem_globals]
  exact hσ _ a.mem b hb

theorem length_scope : localSlotBase + a.scope.length ≤ 2 ^ 64 := by
  have hlocals := length_locals_through_le σ.symbols a.function.name ⟨σ.globals, []⟩ a.code
  have hcode := a.length_code_lt
  change (σ.naming a.code).locals.length ≤ 0 + _ at hlocals
  rw [a.naming_code] at hlocals
  have hbase : localSlotBase = 0x100000000 := rfl
  omega

/-- The locals before some code of a function are among those of the function. -/
theorem place {before rest : List CodeLine} (h : a.code = before ++ rest) :
    Place a.scope (σ.naming before).locals := by
  refine ⟨?_, a.length_scope⟩
  rw [← a.naming_code, h, naming_append]
  exact Naming.isPrefix_through _ _

theorem site (hσ : σ.program.Separated) {before rest : List CodeLine}
    (h : a.code = before ++ rest) : σ.Site a.scope (σ.naming before).locals :=
  ⟨a.place h, fun _ hname => a.notMem_globals hσ ((a.place h).mem_scope hname)⟩

/-- An expression of a function has what its evaluation needs. -/
theorem exprReady (hσ : σ.program.Consistent) {st : Stmt} {e : Expr} {locals : List String}
    {P : String → Prop} (hst : st ∈ a.function.statements) (he : e ∈ st.operands)
    (hcode : exprCode σ.names.functions e ⊆ a.code) (hscoped : ExprScoped σ.names locals e)
    (hP : ∀ name ∈ e.reads, P name) : σ.ExprReady locals P e := by
  intro part hpart
  have hexpressions := FunctionDef.parts_subset_expressions hst he hpart
  have hresolves := hscoped part hpart
  cases part with
  | literal value =>
    cases value with
    | str content =>
      have hmem := hcode (literal_mem_exprCode _ e hpart)
      have hlength := length_utf8_le σ.symbols a.function.name ⟨σ.globals, []⟩ hmem
      exact hlength.trans_lt (a.length_code_lt.trans (by decide))
    | number _ | chr _ => trivial
  | lookup name => exact ⟨hresolves, hP name (List.mem_filterMap.2 ⟨_, hpart, rfl⟩)⟩
  | index name i =>
    refine ⟨hresolves, hP name (List.mem_filterMap.2 ⟨_, hpart, rfl⟩), fun hname => ?_⟩
    exact hσ.index _ a.mem name i hexpressions (σ.mem_globals.1 hname)
  | call callee arguments =>
    obtain ⟨g, hget, hlength⟩ := hresolves
    obtain ⟨hg, hname⟩ := FunctionTable.mem_of_get? σ.compiled.functions_eq hget
    have hcallee := FunctionDef.mem_callees_of_call hexpressions
    exact ⟨g, hg, hget, hname, .call a.mem a.reachable hcallee, hlength⟩
  | binary _ _ _ | compare _ _ _ | unary _ _ | not _ => trivial

end Activation

end Setting

end Firestorm
