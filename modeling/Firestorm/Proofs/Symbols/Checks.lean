import Mathlib.Logic.Function.Basic
import Firestorm.CompileError
import Firestorm.Proofs.Program.Parts
import Firestorm.Proofs.Symbols.Tables
import Firestorm.Proofs.Tracking
import Firestorm.Symbols.Slot

/-!
# The checks of a function

What a code generator looks at when it passes over the body of a function, without the code: the
datatypes of the locals declared so far, the globals and the functions. Each name that is declared,
read or called is checked where it stands in the text.

## Main definitions

* `Checks.Check`, `Checks.expr`, `Checks.stmt`, `Checks.block`, `Checks.program`, `Checks.Adds`,
  `FunctionDef.Checked`.

## Main results

* `Checks.declareAll_eq_ok`, `Checks.checked_of_program`.
* `Checks.passed_of_block`: what the checks of statements say of them.
-/

namespace Firestorm.Checks

open Fallible

/-- The datatypes of the locals declared so far. -/
abbrev Locals := String → Option Datatype

/-- A pass over a function that may fail. -/
abbrev Check (α : Type) := StateT Locals (Except CompileError) α

/-- The locals with one more declaration. A name that is declared again has to keep its datatype. -/
def declare (b : Binding) : Check Unit := fun locals =>
  if (locals b.name).all (· = b.datatype) then
    .ok ((), Function.update locals b.name (some b.datatype))
  else .error (.symbol (.redefined b.name))

/-- The locals with all the declarations. -/
def declareAll : List Binding → Check Unit
  | [] => return
  | b :: rest => do
    declare b
    declareAll rest

section

variable (globals : GlobalTable) (functions : FunctionTable)

/-- The datatype of the variable that a name means: a local if there is one, else a global. -/
def datatype (name : String) : Check Datatype := fun locals =>
  match (locals name).or (globals.get? name) with
  | some d => .ok (d, locals)
  | none => .error (.symbol (.undefined name))

/-- A call means a function with as many parameters as there are arguments. -/
def callee (name : String) (arguments : Nat) : Check Unit := fun locals =>
  match functions.resolve name arguments with
  | .ok _ => .ok ((), locals)
  | .error e => .error (.symbol e)

mutual

/-- The checks of an expression. -/
def expr : Expr → Check Unit
  | .literal _ => return
  | .lookup name => discard (datatype globals name)
  | .index name i => do
    discard (datatype globals name)
    expr i
  | .call name arguments => do
    callee functions name arguments.length
    exprs arguments
  | .binary _ left right => do
    expr left
    expr right
  | .compare _ left right => do
    expr left
    expr right
  | .unary _ operand => expr operand
  | .not operand => expr operand

/-- The checks of arguments. -/
def exprs : List Expr → Check Unit
  | [] => return
  | e :: rest => do
    expr e
    exprs rest

end

mutual

/-- The checks of a statement. -/
def stmt : Stmt → Check Unit
  | .declare b none => declare b
  | .declare b (some e) => do
    declare b
    expr globals functions e
  | .assign target value => do
    discard (datatype globals target)
    expr globals functions value
  | .assignIndexed target i value => do
    if !(← datatype globals target).array then throw .bitAssignment
    expr globals functions i
    expr globals functions value
  | .increment target => discard (datatype globals target)
  | .decrement target => discard (datatype globals target)
  | .return_ none => return
  | .return_ (some e) => expr globals functions e
  | .ifThen condition body => do
    expr globals functions condition
    block body
  | .ifElse condition body otherwise => do
    expr globals functions condition
    block body
    block otherwise
  | .while_ condition body => do
    expr globals functions condition
    block body
  | .doWhile body condition => do
    block body
    expr globals functions condition
  | .loop body => block body
  | .expr e => expr globals functions e

/-- The checks of a list of statements. -/
def block : List Stmt → Check Unit
  | [] => return
  | s :: rest => do
    stmt s
    block rest

end

/-- The checks of a function whose parameters are declared in the given order. -/
def function (parameters : List Binding) (body : List Stmt) : Check Unit := do
  declareAll parameters
  block globals functions body

/-- The checks of the functions of a program, where `order` is the order in which parameters are
declared. -/
def program (order : List Binding → List Binding) : List FunctionDef → Except CompileError Unit
  | [] => .ok ()
  | f :: rest =>
    match f.body with
    | .assembly _ => program order rest
    | .statements body => do
      let _ ← function globals functions (order f.parameters) body fun _ => none
      program order rest

end

/-! ### Declarations -/

/-- The locals behind declarations are those before them and those that are declared. -/
def Adds (bs : List Binding) (locals locals' : Locals) : Prop :=
  ∀ name d, locals' name = some d ↔ locals name = some d ∨ ⟨name, d⟩ ∈ bs

section

variable {b : Binding} {bs more : List Binding} {locals locals' locals'' : Locals}

theorem Adds.nil (locals : Locals) : Adds [] locals locals := by
  simp [Adds]

theorem Adds.append (h : Adds bs locals locals') (h' : Adds more locals' locals'') :
    Adds (bs ++ more) locals locals'' := by
  intro name d
  rw [h' name d, h name d, List.mem_append, or_assoc]

theorem Adds.unique (h : Adds bs locals locals') (h' : Adds bs locals locals'') :
    locals' = locals'' := by
  funext name
  refine Option.ext fun d => ?_
  rw [h name d, h' name d]

theorem adds_update (h : (locals b.name).all (· = b.datatype)) :
    Adds [b] locals (Function.update locals b.name (some b.datatype)) := by
  intro name d
  by_cases hname : name = b.name
  · subst hname
    rw [Option.all_eq_true] at h
    simp only [Function.update_self, Option.some_inj, List.mem_singleton]
    constructor
    · rintro rfl
      exact .inr rfl
    · rintro (hd | hb)
      · exact (of_decide_eq_true (h d hd)).symm
      · exact (congrArg Binding.datatype hb).symm
  · have hb : (⟨name, d⟩ : Binding) ≠ b := fun heq => hname (congrArg Binding.name heq)
    simp [Function.update_of_ne hname, hb]

/-- A declaration passes if there are locals in which its name has no other datatype. -/
theorem declare_eq_ok : declare b locals = .ok ((), locals') ↔ Adds [b] locals locals' := by
  unfold declare
  by_cases hall : (locals b.name).all (· = b.datatype)
  · rw [if_pos hall]
    constructor
    · intro h
      cases h
      exact adds_update hall
    · intro h
      rw [h.unique (adds_update hall)]
  · rw [if_neg hall]
    refine iff_of_false (fun h => ?_) fun h => hall ?_
    · cases h
    · have hself : locals' b.name = some b.datatype := (h _ _).2 (.inr (List.mem_singleton_self b))
      rw [Option.all_eq_true]
      intro d hd
      have hd' : locals' b.name = some d := (h _ _).2 (.inl hd)
      exact decide_eq_true (Option.some_inj.1 (hd'.symm.trans hself))

theorem declare_eq_error {e : CompileError} (h : declare b locals = .error e) :
    e = .symbol (.redefined b.name) := by
  unfold declare at h
  split_ifs at h
  cases h
  rfl

/-- Declarations pass, in whatever order they stand, if there are locals in which each name has one
datatype. -/
theorem declareAll_eq_ok : declareAll bs locals = .ok ((), locals') ↔ Adds bs locals locals' := by
  induction bs generalizing locals with
  | nil =>
    rw [declareAll, pure_eq_ok]
    simp only [true_and]
    constructor
    · rintro rfl
      exact .nil _
    · exact (Adds.nil locals).unique
  | cons b rest ih =>
    rw [declareAll, bind_eq_ok]
    constructor
    · rintro ⟨_, locals₁, hb, hrest⟩
      exact (declare_eq_ok.1 hb).append (ih.1 hrest)
    · intro h
      have hb : (locals b.name).all (· = b.datatype) := by
        rw [Option.all_eq_true]
        intro d hd
        have hd' : locals' b.name = some d := (h _ _).2 (.inl hd)
        have hself : locals' b.name = some b.datatype := (h _ _).2 (.inr (List.mem_cons_self ..))
        exact decide_eq_true (Option.some_inj.1 (hd'.symm.trans hself))
      have hadds := adds_update hb
      refine ⟨(), _, declare_eq_ok.2 hadds, ih.2 fun name d => ?_⟩
      rw [h name d, hadds name d, List.mem_cons, List.mem_singleton, or_assoc]

theorem declareAll_eq_error {e : CompileError} (h : declareAll bs locals = .error e) :
    ∃ name, e = .symbol (.redefined name) := by
  induction bs generalizing locals with
  | nil => cases h
  | cons b rest ih =>
    rcases bind_eq_error.1 h with hb | ⟨_, locals₁, -, hrest⟩
    · exact ⟨_, declare_eq_error hb⟩
    · exact ih hrest

end

/-! ### Statements -/

/-- If an expression is a call, the function that it means has as many parameters as there are
arguments. -/
def Fits (functions : FunctionTable) (e : Expr) : Prop :=
  ∀ name arguments, e = .call name arguments → ∃ f, functions.resolve name arguments.length = .ok f

section

variable {globals : GlobalTable} {functions : FunctionTable} {locals locals' : Locals}
variable {name : String}

theorem datatype_eq_ok {d : Datatype} (h : datatype globals name locals = .ok (d, locals')) :
    locals' = locals := by
  unfold datatype at h
  cases hd : (locals name).or (globals.get? name) with
  | none => simp [hd] at h
  | some d' =>
    rw [hd] at h
    cases h
    rfl

theorem callee_eq_ok {arguments : Nat}
    (h : callee functions name arguments locals = .ok ((), locals')) :
    (∃ f, functions.resolve name arguments = .ok f) ∧ locals' = locals := by
  unfold callee at h
  cases hf : functions.resolve name arguments with
  | error e => simp [hf] at h
  | ok f =>
    rw [hf] at h
    cases h
    exact ⟨⟨f, rfl⟩, rfl⟩

theorem fits_call {arguments : List Expr}
    (h : ∃ f, functions.resolve name arguments.length = .ok f) :
    Fits functions (.call name arguments) := by
  intro name' arguments' heq
  cases heq
  exact h

theorem fits_of_ne {e : Expr} (h : ∀ name arguments, e ≠ .call name arguments) : Fits functions e :=
  fun name arguments heq => absurd heq (h name arguments)

mutual

/-- The checks of an expression leave the locals alone, and its calls fit. -/
theorem expr_eq_ok : ∀ (e : Expr) {locals locals' : Locals},
    expr globals functions e locals = .ok ((), locals') →
      locals' = locals ∧ ∀ part ∈ e.parts, Fits functions part
  | .literal value, locals, locals', h => by
    rw [expr, pure_eq_ok] at h
    refine ⟨h.2.symm, List.forall_mem_singleton.2 (fits_of_ne (by simp))⟩
  | .lookup name, locals, locals', h => by
    rw [expr, discard_eq_ok] at h
    obtain ⟨d, hd⟩ := h
    exact ⟨datatype_eq_ok hd, List.forall_mem_singleton.2 (fits_of_ne (by simp))⟩
  | .index name i, locals, locals', h => by
    simp only [expr, bind_eq_ok, discard_eq_ok] at h
    obtain ⟨_, locals₁, ⟨d, hd⟩, hi⟩ := h
    obtain ⟨rfl, hparts⟩ := expr_eq_ok i hi
    exact ⟨datatype_eq_ok hd, List.forall_mem_cons.2 ⟨fits_of_ne (by simp), hparts⟩⟩
  | .call name arguments, locals, locals', h => by
    simp only [expr, bind_eq_ok] at h
    obtain ⟨_, locals₁, hf, hes⟩ := h
    obtain ⟨hresolve, rfl⟩ := callee_eq_ok hf
    obtain ⟨rfl, hparts⟩ := exprs_eq_ok arguments hes
    exact ⟨rfl, List.forall_mem_cons.2 ⟨fits_call hresolve, hparts⟩⟩
  | .binary _ left right, locals, locals', h | .compare _ left right, locals, locals', h => by
    simp only [expr, bind_eq_ok] at h
    obtain ⟨_, locals₁, hleft, hright⟩ := h
    obtain ⟨rfl, hleft'⟩ := expr_eq_ok left hleft
    obtain ⟨rfl, hright'⟩ := expr_eq_ok right hright
    exact ⟨rfl, List.forall_mem_cons.2
      ⟨fits_of_ne (by simp), List.forall_mem_append.2 ⟨hleft', hright'⟩⟩⟩
  | .unary _ operand, locals, locals', h | .not operand, locals, locals', h => by
    rw [expr] at h
    obtain ⟨rfl, hparts⟩ := expr_eq_ok operand h
    exact ⟨rfl, List.forall_mem_cons.2 ⟨fits_of_ne (by simp), hparts⟩⟩

theorem exprs_eq_ok : ∀ (es : List Expr) {locals locals' : Locals},
    exprs globals functions es locals = .ok ((), locals') →
      locals' = locals ∧ ∀ part ∈ Expr.partsOf es, Fits functions part
  | [], locals, locals', h => by
    rw [exprs, pure_eq_ok] at h
    exact ⟨h.2.symm, List.forall_mem_nil _⟩
  | e :: rest, locals, locals', h => by
    simp only [exprs, bind_eq_ok] at h
    obtain ⟨_, locals₁, he, hrest⟩ := h
    obtain ⟨rfl, he'⟩ := expr_eq_ok e he
    obtain ⟨rfl, hrest'⟩ := exprs_eq_ok rest hrest
    exact ⟨rfl, List.forall_mem_append.2 ⟨he', hrest'⟩⟩

end

/-- Statements that have passed the checks: the locals behind them are those that they declare, and
their calls fit. -/
structure Passed (functions : FunctionTable) (parts : List Stmt) (locals locals' : Locals) :
    Prop where
  adds : Adds (parts.filterMap Stmt.binding?) locals locals'
  fits : ∀ st ∈ parts, ∀ e ∈ st.operands, ∀ part ∈ e.parts, Fits functions part

namespace Passed

variable {parts more : List Stmt} {locals'' : Locals}

theorem nil (locals : Locals) : Passed functions [] locals locals :=
  ⟨.nil locals, List.forall_mem_nil _⟩

theorem append (h : Passed functions parts locals locals')
    (h' : Passed functions more locals' locals'') :
    Passed functions (parts ++ more) locals locals'' where
  adds := by
    rw [List.filterMap_append]
    exact h.adds.append h'.adds
  fits := List.forall_mem_append.2 ⟨h.fits, h'.fits⟩

/-- A statement that declares nothing itself. -/
theorem cons {st : Stmt} (h : Passed functions parts locals locals') (hst : st.binding? = none)
    (hfits : ∀ e ∈ st.operands, ∀ part ∈ e.parts, Fits functions part) :
    Passed functions (st :: parts) locals locals' where
  adds := by
    rw [List.filterMap_cons_none hst]
    exact h.adds
  fits := List.forall_mem_cons.2 ⟨hfits, h.fits⟩

/-- A statement without statements inside it, that declares nothing. -/
theorem single {st : Stmt} (hst : st.binding? = none)
    (hfits : ∀ e ∈ st.operands, ∀ part ∈ e.parts, Fits functions part) :
    Passed functions [st] locals locals :=
  (nil locals).cons hst hfits

end Passed

mutual

theorem passed_of_stmt : ∀ (st : Stmt) {locals locals' : Locals},
    stmt globals functions st locals = .ok ((), locals') → Passed functions st.parts locals locals'
  | .declare b none, locals, locals', h => by
    rw [stmt, declare_eq_ok] at h
    exact ⟨h, by simp [Stmt.parts, Stmt.operands]⟩
  | .declare b (some e), locals, locals', h => by
    simp only [stmt, bind_eq_ok] at h
    obtain ⟨_, locals₁, hb, he⟩ := h
    obtain ⟨rfl, hparts⟩ := expr_eq_ok e he
    exact ⟨declare_eq_ok.1 hb, by simpa [Stmt.parts, Stmt.operands] using hparts⟩
  | .assign target value, locals, locals', h => by
    simp only [stmt, bind_eq_ok, discard_eq_ok] at h
    obtain ⟨_, locals₁, ⟨d, hd⟩, he⟩ := h
    obtain rfl := datatype_eq_ok hd
    obtain ⟨rfl, hparts⟩ := expr_eq_ok value he
    exact .single rfl (List.forall_mem_singleton.2 hparts)
  | .assignIndexed target i value, locals, locals', h => by
    simp only [stmt, bind_eq_ok, unless_eq_ok] at h
    obtain ⟨d, locals₁, hd, -, _, locals₂, hi, he⟩ := h
    obtain rfl := datatype_eq_ok hd
    obtain ⟨rfl, hi'⟩ := expr_eq_ok i hi
    obtain ⟨rfl, he'⟩ := expr_eq_ok value he
    exact .single rfl (List.forall_mem_cons.2 ⟨hi', List.forall_mem_singleton.2 he'⟩)
  | .increment _, locals, locals', h | .decrement _, locals, locals', h => by
    rw [stmt, discard_eq_ok] at h
    obtain ⟨d, hd⟩ := h
    obtain rfl := datatype_eq_ok hd
    exact .single rfl (List.forall_mem_nil _)
  | .return_ none, locals, locals', h => by
    rw [stmt, pure_eq_ok] at h
    obtain ⟨-, rfl⟩ := h
    exact .single rfl (List.forall_mem_nil _)
  | .return_ (some e), locals, locals', h => by
    rw [stmt] at h
    obtain ⟨rfl, he⟩ := expr_eq_ok e h
    exact .single rfl (List.forall_mem_singleton.2 he)
  | .ifElse condition body otherwise, locals, locals', h => by
    simp only [stmt, bind_eq_ok] at h
    obtain ⟨_, locals₁, hc, _, locals₂, hb, ho⟩ := h
    obtain ⟨rfl, hc'⟩ := expr_eq_ok condition hc
    exact ((passed_of_block body hb).append (passed_of_block otherwise ho)).cons rfl
      (List.forall_mem_singleton.2 hc')
  | .ifThen condition body, locals, locals', h | .while_ condition body, locals, locals', h => by
    simp only [stmt, bind_eq_ok] at h
    obtain ⟨_, locals₁, hc, hb⟩ := h
    obtain ⟨rfl, hc'⟩ := expr_eq_ok condition hc
    exact (passed_of_block body hb).cons rfl (List.forall_mem_singleton.2 hc')
  | .doWhile body condition, locals, locals', h => by
    simp only [stmt, bind_eq_ok] at h
    obtain ⟨_, locals₁, hb, hc⟩ := h
    obtain ⟨rfl, hc'⟩ := expr_eq_ok condition hc
    exact (passed_of_block body hb).cons rfl (List.forall_mem_singleton.2 hc')
  | .loop body, locals, locals', h => by
    rw [stmt] at h
    exact (passed_of_block body h).cons rfl (List.forall_mem_nil _)
  | .expr e, locals, locals', h => by
    rw [stmt] at h
    obtain ⟨rfl, he⟩ := expr_eq_ok e h
    exact .single rfl (List.forall_mem_singleton.2 he)

theorem passed_of_block : ∀ (body : List Stmt) {locals locals' : Locals},
    block globals functions body locals = .ok ((), locals') →
      Passed functions (Stmt.partsOf body) locals locals'
  | [], locals, locals', h => by
    rw [block, pure_eq_ok] at h
    obtain ⟨-, rfl⟩ := h
    exact .nil locals
  | s :: rest, locals, locals', h => by
    simp only [block, bind_eq_ok] at h
    obtain ⟨_, locals₁, hs, hrest⟩ := h
    exact (passed_of_stmt s hs).append (passed_of_block rest hrest)

end

end

end Firestorm.Checks

namespace Firestorm

open Checks Fallible

/-- What the checks of a function promise to its runs: every declaration of a name has the same
datatype, and the calls fit the functions that they call. -/
structure FunctionDef.Checked (functions : FunctionTable) (f : FunctionDef) : Prop where
  datatypes : ∀ b ∈ f.locals, ∀ b' ∈ f.locals, b.name = b'.name → b.datatype = b'.datatype
  fits : ∀ e ∈ f.expressions, Fits functions e

namespace Checks

variable {globals : GlobalTable} {functions : FunctionTable}

theorem checked_of_function {f : FunctionDef} {body : List Stmt} (hbody : f.body = .statements body)
    {order : List Binding → List Binding} (horder : ∀ bs b, b ∈ order bs ↔ b ∈ bs) {locals : Locals}
    (h : function globals functions (order f.parameters) body (fun _ => none) = .ok ((), locals)) :
    f.Checked functions := by
  simp only [function, bind_eq_ok] at h
  obtain ⟨_, locals₁, hparameters, hblock⟩ := h
  have hpassed := passed_of_block body hblock
  have hadds := (declareAll_eq_ok.1 hparameters).append hpassed.adds
  have hlocals : ∀ b ∈ f.locals, locals b.name = some b.datatype := by
    intro b hb
    refine (hadds b.name b.datatype).2 (.inr ?_)
    rw [FunctionDef.locals, hbody, List.mem_append] at hb
    exact List.mem_append.2 (hb.imp_left (horder _ _).2)
  refine ⟨fun b hb b' hb' hname => ?_, fun part hpart => ?_⟩
  · have h' := hlocals b' hb'
    rw [← hname, hlocals b hb] at h'
    exact Option.some_inj.1 h'
  · rw [FunctionDef.expressions, hbody] at hpart
    obtain ⟨st, hst, hpart⟩ := List.mem_flatMap.1 hpart
    obtain ⟨e, he, hpart⟩ := List.mem_flatMap.1 hpart
    exact hpassed.fits st hst e he part hpart

/-- Functions that pass the checks keep their promise. -/
theorem checked_of_program {order : List Binding → List Binding}
    (horder : ∀ bs b, b ∈ order bs ↔ b ∈ bs) {fs : List FunctionDef}
    (h : program globals functions order fs = .ok ()) {f : FunctionDef} (hf : f ∈ fs)
    {body : List Stmt} (hbody : f.body = .statements body) : f.Checked functions := by
  induction fs with
  | nil => cases hf
  | cons f' rest ih =>
    cases hbody' : f'.body with
    | assembly text =>
      simp only [program, hbody'] at h
      rcases List.mem_cons.1 hf with rfl | hf
      · cases hbody.symm.trans hbody'
      · exact ih h hf
    | statements body' =>
      simp only [program, hbody', except_bind_eq_ok] at h
      obtain ⟨⟨_, locals⟩, hfunction, hrest⟩ := h
      rcases List.mem_cons.1 hf with rfl | hf
      · cases hbody.symm.trans hbody'
        exact checked_of_function hbody horder hfunction
      · exact ih hrest hf

end Checks

/-! ### Layouts -/

/-- The datatypes of the locals that have a slot. -/
def FrameLayout.datatypes (layout : FrameLayout) : Locals :=
  fun name => (layout.get? name).map Slot.datatype

section

variable {layout : FrameLayout} {globals : GlobalTable} {name : String}

theorem Checks.datatype_of_slot {slot : Slot} (h : layout.get? name = some slot) :
    Checks.datatype globals name layout.datatypes = .ok (slot.datatype, layout.datatypes) := by
  have hlocal : layout.datatypes name = some slot.datatype := by
    rw [FrameLayout.datatypes, h, Option.map_some]
  rw [Checks.datatype, hlocal, Option.some_or]

theorem Checks.datatype_of_global {d : Datatype} (h : layout.get? name = none)
    (hd : globals.get? name = some d) :
    Checks.datatype globals name layout.datatypes = .ok (d, layout.datatypes) := by
  have hlocal : layout.datatypes name = none := by rw [FrameLayout.datatypes, h, Option.map_none]
  rw [Checks.datatype, hlocal, hd, Option.none_or]

theorem Checks.datatype_of_none (h : layout.get? name = none) (hd : globals.get? name = none) :
    Checks.datatype globals name layout.datatypes = .error (.symbol (.undefined name)) := by
  have hlocal : layout.datatypes name = none := by rw [FrameLayout.datatypes, h, Option.map_none]
  rw [Checks.datatype, hlocal, hd, Option.none_or]

end

/-- A declaration has a slot if it passes the checks. -/
theorem FrameLayout.declare_matches (exempt : CompileError → Prop) (layout : FrameLayout)
    (b : Binding) :
    Matches exempt (fun r r' => r.2.datatypes = r'.2) ((layout.declare b).mapError .symbol)
      (Checks.declare b layout.datatypes) := by
  cases hslot : layout.get? b.name with
  | none =>
    have hdatatype : layout.datatypes b.name = none := by rw [datatypes, hslot, Option.map_none]
    simp only [declare, hslot, Checks.declare, hdatatype, Option.all_none, if_true, Except.mapError]
    refine .pure ?_
    funext name
    by_cases hname : name = b.name <;> simp [datatypes, get?, hname]
  | some slot =>
    have hdatatype : layout.datatypes b.name = some slot.datatype := by
      rw [datatypes, hslot, Option.map_some]
    simp only [declare, hslot, Checks.declare, hdatatype, Option.all_some, decide_eq_true_eq]
    by_cases hsame : slot.datatype = b.datatype
    · rw [if_pos hsame, if_pos hsame]
      refine .pure ?_
      rw [← hsame, ← hdatatype, Function.update_eq_self]
    · rw [if_neg hsame, if_neg hsame]
      exact .throw _

end Firestorm
