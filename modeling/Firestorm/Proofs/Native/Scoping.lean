import Firestorm.Proofs.Interpreter.Visits
import Firestorm.Proofs.Native.Pieces

/-!
# The names that the generator of native code meets

The generator of native code passes over the text of a function and keeps the locals that it has met
in the layout of the frame, as the generator of bytecode does. It declares the parameters from the
first to the last, so that the names of its layout stand in another order.

## Main definitions

* `Native.generation`.

## Main results

* `Native.descends_generation`, `Native.exists_generation`.
* `Native.sameNames_block`: the layout behind statements has the names that they declare.
* `Native.looksUp_of_expr`, `Native.looksUp_of_stmt`: it has looked up the variables of the parts.
-/

namespace Firestorm.Native

open Fallible Interpreter Bytecode

variable {N : Native.Names} {c : Convention}

/-- The names of the locals declared so far. -/
def GenerateState.scope (s : GenerateState) : List String := s.layout.slots.names

/-- Two lists have the same names. -/
def SameNames (names others : List String) : Prop :=
  ∀ name, name ∈ names ↔ name ∈ others

/-! ### Declarations -/

theorem mem_names_after {layout : FrameLayout} {b : Binding} {name : String} :
    name ∈ (layout.after b).slots.names ↔ name ∈ layout.slots.names ∨ b.name = name := by
  unfold FrameLayout.after
  cases h : layout.declare b with
  | ok r =>
    dsimp only
    rw [names_of_declare h, mem_insertName, eq_comm (a := name)]
  | error e =>
    -- What is rejected is another declaration of a name that has a slot.
    obtain ⟨-, slot, hslot, -⟩ := FrameLayout.declare_eq_error_iff.1 h
    have hmem : b.name ∈ layout.slots.names := Table.mem_names_of_get? hslot
    exact ⟨.inl, fun hname => hname.elim id fun heq => heq ▸ hmem⟩

/-- The layout behind declarations has the names that are declared. -/
theorem mem_names_afterAll {layout : FrameLayout} {bs : List Binding} {name : String} :
    name ∈ (layout.afterAll bs).slots.names ↔ name ∈ layout.slots.names ∨ ∃ b ∈ bs,
    b.name = name := by
  induction bs generalizing layout with
  | nil => simp
  | cons b bs ih =>
    rw [FrameLayout.afterAll, List.foldl_cons, ← FrameLayout.afterAll, ih, mem_names_after,
      or_assoc, List.exists_mem_cons_iff]

mutual

theorem mem_stmtScope {scope : List String} {name : String} :
    ∀ st : Stmt, name ∈ stmtScope scope st ↔ name ∈ scope ∨ ∃ b ∈ st.bindings, b.name = name
  | .declare b init => by
    simp [stmtScope, Stmt.bindings, Stmt.parts, Stmt.binding?, or_comm, eq_comm]
  | .ifThen _ body | .while_ _ body | .doWhile body _ | .loop body => mem_blockScope body
  | .ifElse _ body otherwise => by
    rw [stmtScope, mem_blockScope otherwise, mem_blockScope body, Stmt.bindings_ifElse]
    simp only [List.mem_append, or_and_right, exists_or, or_assoc]
  | .assign .. | .assignIndexed .. | .increment _ | .decrement _ | .return_ _ | .expr _ => by
    simp [stmtScope, Stmt.bindings, Stmt.parts, Stmt.binding?]

theorem mem_blockScope {scope : List String} {name : String} :
    ∀ body : List Stmt, name ∈ blockScope scope body ↔ name ∈ scope ∨ ∃ b ∈ Stmt.bindingsOf body,
      b.name = name
  | [] => by simp [blockScope]
  | st :: rest => by
    rw [blockScope, mem_blockScope rest, mem_stmtScope st, Stmt.bindingsOf_cons]
    simp only [List.mem_append, or_and_right, exists_or, or_assoc]

end

/-! ### Names in any order -/

section

variable {c : Convention} {N : Native.Names} {function : String} {s s' : GenerateState}
  {scope : List String}

theorem state_of_variableOf {name : String} {v : Native.Variable}
    (h : Native.variableOf N name s = .ok (v, s')) : s' = s :=
  (variableOf_eq_ok h).2

theorem sameNames_freshLabel {label : String} (hs : SameNames s.scope scope)
    (h : Native.freshLabel function s = .ok (label, s')) : SameNames s'.scope scope := by
  rw [GenerateState.scope, (freshLabel_eq_ok h).1]
  exact hs

theorem sameNames_expr (hN : Names.Keyed N) (hs : SameNames s.scope scope) {e : Expr} {target : Nat}
    {code : List (Primitive c.registers)}
    (h : Native.expr c N function e target s = .ok (code, s')) : SameNames s'.scope scope := by
  rw [GenerateState.scope, (delivers hN e target s s' code h).layout_eq]
  exact hs

theorem sameNames_declareLocal (hs : SameNames s.scope scope) {b : Binding} {slot : Slot}
    (h : Native.declareLocal b s = .ok (slot, s')) :
    SameNames s'.scope (insertName scope b.name) := by
  obtain ⟨layout, hdeclare, rfl⟩ := Native.declareLocal_eq_ok h
  intro name
  rw [GenerateState.scope, names_of_declare hdeclare, mem_insertName, mem_insertName]
  exact or_congr_left (hs name)

theorem mem_scope_of_emitted {strings callees : List String} {locals : List Binding}
    {code : List (Primitive c.registers)}
    (h : Emitted true N function strings callees locals s s' code) {name : String} :
    name ∈ s'.scope ↔ name ∈ s.scope ∨ ∃ b ∈ locals, b.name = name := by
  obtain ⟨A, -, -, rfl, hA, -⟩ := h
  rw [GenerateState.scope, hA.layout_eq]
  exact mem_names_afterAll

/-- The layout behind a statement has the names that the statement declares. -/
theorem sameNames_stmt (hN : Names.Keyed N) (hs : SameNames s.scope scope) {st : Stmt}
    {code : List (Primitive c.registers)} (h : Native.stmt c N function st s = .ok (code, s')) :
    SameNames s'.scope (stmtScope scope st) := by
  intro name
  rw [mem_scope_of_emitted (emitted_stmt hN st _ _ _ h), mem_stmtScope]
  exact or_congr_left (hs name)

theorem sameNames_block (hN : Names.Keyed N) (hs : SameNames s.scope scope) {body : List Stmt}
    {code : List (Primitive c.registers)} (h : Native.block c N function body s = .ok (code, s')) :
    SameNames s'.scope (blockScope scope body) := by
  intro name
  rw [mem_scope_of_emitted (emitted_block hN body _ _ _ h), mem_blockScope]
  exact or_congr_left (hs name)

theorem sameNames_parameters (N : Native.Names) (function : String) {bs : List Binding} {n : Nat}
    {strings : List String} {code : List (Primitive c.registers)}
    (h : parameters c bs 0 ⟨n, strings, .reserving c.reserved, []⟩ = .ok (code, s')) :
    SameNames s'.scope (bindingsScope [] bs.reverse) := by
  have hparameters : Emitted true N function [] [] bs _ s' code := emitted_parameters h
  intro name
  rw [mem_scope_of_emitted hparameters, mem_bindingsScope]
  simp only [List.mem_reverse]
  exact Iff.rfl

end

/-! ### The generator as a pass over the text -/

/-- The generator has made code for a part of the text with the given names in its layout. -/
def generation (c : Convention) (N : Native.Names) : Pass where
  expr scope e := ∃ function target s r, SameNames (GenerateState.scope s) scope ∧
    Native.expr c N function e target s = .ok r
  arguments scope es := ∃ function target s r, SameNames (GenerateState.scope s) scope ∧
    exprs c N function es target s = .ok r
  stmt scope st := ∃ function s r, SameNames (GenerateState.scope s) scope ∧
    Native.stmt c N function st s = .ok r
  block scope body := ∃ function s r, SameNames (GenerateState.scope s) scope ∧
    Native.block c N function body s = .ok r

/-- The generator goes on to all parts of the text. -/
theorem descends_generation (c : Convention) (hN : Names.Keyed N) : (generation c N).Descends where
  index := by
    rintro _ _ _ ⟨function, target, s, r, hs, h⟩
    simp only [Native.expr, bind_eq_ok, register_eq_ok] at h
    obtain ⟨_, _, ⟨-, rfl⟩, _, s₂, hv, _, s₃, hi, -⟩ := h
    rw [state_of_variableOf hv] at hi
    exact ⟨function, _, _, _, hs, hi⟩
  call := by
    rintro _ _ _ ⟨function, target, s, r, hs, h⟩
    simp only [Native.expr, bind_eq_ok, unless_eq_ok, register_eq_ok, ofSymbols_eq_ok] at h
    obtain ⟨_, _, ⟨-, rfl⟩, _, s₂, ⟨-, rfl⟩, _, s₃, hnote, -, _, s₄, hes, -⟩ := h
    have hscope : s₃.scope = s₂.scope := by
      rw [noteCallee_eq_ok hnote]
      rfl
    exact ⟨function, _, s₃, _, hscope ▸ hs, hes⟩
  binary := by
    rintro _ _ _ _ ⟨function, target, s, r, hs, h⟩
    simp only [Native.expr, bind_eq_ok, register_eq_ok] at h
    obtain ⟨_, _, ⟨-, rfl⟩, _, s₂, hleft, _, s₃, hright, -⟩ := h
    exact ⟨⟨function, _, _, _, hs, hleft⟩, ⟨function, _, s₂, _, sameNames_expr hN hs hleft, hright⟩⟩
  compare := by
    rintro _ _ _ _ ⟨function, target, s, r, hs, h⟩
    simp only [Native.expr, bind_eq_ok, register_eq_ok] at h
    obtain ⟨_, _, ⟨-, rfl⟩, _, s₂, hleft, _, s₃, hright, -⟩ := h
    exact ⟨⟨function, _, _, _, hs, hleft⟩, ⟨function, _, s₂, _, sameNames_expr hN hs hleft, hright⟩⟩
  unary := by
    rintro _ _ _ ⟨function, target, s, r, hs, h⟩
    simp only [Native.expr, bind_eq_ok, register_eq_ok] at h
    obtain ⟨_, _, ⟨-, rfl⟩, _, s₂, ho, -⟩ := h
    exact ⟨function, _, _, _, hs, ho⟩
  not := by
    rintro _ _ ⟨function, target, s, r, hs, h⟩
    simp only [Native.expr, bind_eq_ok, register_eq_ok] at h
    obtain ⟨_, _, ⟨-, rfl⟩, _, s₂, ho, -⟩ := h
    exact ⟨function, _, _, _, hs, ho⟩
  arguments := by
    rintro _ _ _ ⟨function, target, s, r, hs, h⟩
    simp only [exprs, bind_eq_ok] at h
    obtain ⟨_, s₁, he, _, s₂, hes, -⟩ := h
    exact ⟨⟨function, _, s, _, hs, he⟩, ⟨function, _, s₁, _, sameNames_expr hN hs he, hes⟩⟩
  declare := by
    rintro _ _ _ ⟨function, s, r, hs, h⟩
    simp only [Native.stmt, bind_eq_ok] at h
    obtain ⟨_, s₁, hdeclare, _, s₂, he, -⟩ := h
    exact ⟨function, _, s₁, _, sameNames_declareLocal hs hdeclare, he⟩
  assign := by
    rintro _ _ _ ⟨function, s, r, hs, h⟩
    simp only [Native.stmt, bind_eq_ok] at h
    obtain ⟨_, s₁, hv, _, s₂, he, -⟩ := h
    rw [state_of_variableOf hv] at he
    exact ⟨function, _, s, _, hs, he⟩
  assignIndexed := by
    rintro _ _ _ _ ⟨function, s, r, hs, h⟩
    simp only [Native.stmt, bind_eq_ok, unless_eq_ok] at h
    obtain ⟨_, s₁, hv, -, _, s₂, hi, _, s₃, he, -⟩ := h
    rw [state_of_variableOf hv] at hi
    exact ⟨⟨function, _, s, _, hs, hi⟩, ⟨function, _, s₂, _, sameNames_expr hN hs hi, he⟩⟩
  return_ := by
    rintro _ _ ⟨function, s, r, hs, h⟩
    simp only [Native.stmt, bind_eq_ok] at h
    obtain ⟨_, s₁, he, -⟩ := h
    exact ⟨function, _, s, _, hs, he⟩
  ifThen := by
    rintro _ _ _ ⟨function, s, r, hs, h⟩
    simp only [Native.stmt, bind_eq_ok] at h
    obtain ⟨_, s₁, hl, _, s₂, hc, _, s₃, hb, -⟩ := h
    have hs₁ := sameNames_freshLabel hs hl
    exact ⟨⟨function, _, s₁, _, hs₁, hc⟩, ⟨function, s₂, _, sameNames_expr hN hs₁ hc, hb⟩⟩
  ifElse := by
    rintro _ _ _ _ ⟨function, s, r, hs, h⟩
    simp only [Native.stmt, bind_eq_ok] at h
    obtain ⟨_, s₁, hl, _, s₂, hc, _, s₃, hb, _, s₄, hl', _, s₅, ho, -⟩ := h
    have hs₁ := sameNames_freshLabel hs hl
    have hs₂ := sameNames_expr hN hs₁ hc
    have hs₃ := sameNames_block hN hs₂ hb
    exact ⟨⟨function, _, s₁, _, hs₁, hc⟩, ⟨function, s₂, _, hs₂, hb⟩,
      ⟨function, s₄, _, sameNames_freshLabel hs₃ hl', ho⟩⟩
  while_ := by
    rintro _ _ _ ⟨function, s, r, hs, h⟩
    simp only [Native.stmt, bind_eq_ok] at h
    obtain ⟨_, s₁, hl, _, s₂, hl', _, s₃, hc, _, s₄, hb, -⟩ := h
    have hs₂ := sameNames_freshLabel (sameNames_freshLabel hs hl) hl'
    exact ⟨⟨function, _, s₂, _, hs₂, hc⟩, ⟨function, s₃, _, sameNames_expr hN hs₂ hc, hb⟩⟩
  doWhile := by
    rintro _ _ _ ⟨function, s, r, hs, h⟩
    simp only [Native.stmt, bind_eq_ok] at h
    obtain ⟨_, s₁, hl, _, s₂, hb, _, s₃, hc, -⟩ := h
    have hs₁ := sameNames_freshLabel hs hl
    exact ⟨⟨function, s₁, _, hs₁, hb⟩, ⟨function, _, s₂, _, sameNames_block hN hs₁ hb, hc⟩⟩
  loop := by
    rintro _ _ ⟨function, s, r, hs, h⟩
    simp only [Native.stmt, bind_eq_ok] at h
    obtain ⟨_, s₁, hl, _, s₂, hb, -⟩ := h
    exact ⟨function, s₁, _, sameNames_freshLabel hs hl, hb⟩
  discarded := by
    rintro _ _ ⟨function, s, r, hs, h⟩
    exact ⟨function, _, s, _, hs, h⟩
  block := by
    rintro _ _ _ ⟨function, s, r, hs, h⟩
    simp only [Native.block, bind_eq_ok] at h
    obtain ⟨_, s₁, hst, _, s₂, hrest, -⟩ := h
    exact ⟨⟨function, s, _, hs, hst⟩, ⟨function, s₁, _, sameNames_stmt hN hs hst, hrest⟩⟩

/-- With the given names in its layout, the generator has looked up a variable, as a local or
not. -/
def LooksUp (N : Native.Names) (scope : List String) (name : String) (isLocal : Bool) : Prop :=
  ∃ s v, SameNames (GenerateState.scope s) scope ∧ Native.variableOf N name s = .ok (v, s) ∧
    (s.layout.get? name).isSome = isLocal

section

variable {c : Convention} {N : Native.Names} {scope : List String} {name : String}

/-- The generator takes a name for that of a local if it is among the names before it. -/
theorem looksUp_of_variableOf {s s' : GenerateState} {v : Native.Variable}
    (hs : SameNames s.scope scope) (h : Native.variableOf N name s = .ok (v, s')) :
    LooksUp N scope name (name ∈ scope) := by
  obtain rfl := state_of_variableOf h
  refine ⟨s', v, hs, h, ?_⟩
  rw [Bool.eq_iff_iff, decide_eq_true_iff, ← hs name]
  exact Table.isSome_get?_iff

theorem looksUp_of_expr {e : Expr} (he : (generation c N).expr scope e)
    (hread : e.read? = some name) : LooksUp N scope name (name ∈ scope) := by
  obtain ⟨function, target, s, r, hs, h⟩ := he
  cases e with
  | lookup name' | index name' i =>
    obtain rfl : name' = name := Option.some_inj.1 hread
    simp only [Native.expr, bind_eq_ok, register_eq_ok] at h
    obtain ⟨_, _, ⟨-, rfl⟩, v, s₂, hv, -⟩ := h
    exact looksUp_of_variableOf hs hv
  | _ => cases hread

theorem looksUp_of_stmt {st : Stmt} (hst : (generation c N).stmt scope st)
    (htarget : st.target? = some name) : LooksUp N scope name (name ∈ scope) := by
  obtain ⟨function, s, r, hs, h⟩ := hst
  cases st with
  | assign target e | assignIndexed target i e | increment target | decrement target =>
    obtain rfl : target = name := Option.some_inj.1 htarget
    simp only [Native.stmt, bind_eq_ok] at h
    obtain ⟨v, s₁, hv, -⟩ := h
    exact looksUp_of_variableOf hs hv
  | _ => cases htarget

end

/-! ### Functions -/

theorem exists_block {n : Nat} {strings strings' : List String} {fs : List FunctionDef}
    {units : List (FunctionCode c.registers)}
    (h : functionUnits c N n strings fs = .ok (units, strings')) {f : FunctionDef} (hf : f ∈ fs)
    {body : List Stmt} (hbody : f.body = .statements body) :
    (generation c N).block (bindingsScope [] f.parameters.reverse) body := by
  induction fs generalizing n strings strings' units with
  | nil => cases hf
  | cons f' rest ih =>
    simp only [functionUnits, except_bind_eq_ok] at h
    obtain ⟨⟨unit, n₁, strings₁⟩, hunit, ⟨units₁, strings₂⟩, hrest, -⟩ := h
    rcases List.mem_cons.1 hf with rfl | hf
    · simp only [functionUnit, hbody, except_bind_eq_ok] at hunit
      obtain ⟨⟨code, s'⟩, hcode, -⟩ := hunit
      simp only [functionBody, bind_eq_ok] at hcode
      obtain ⟨_, s₁, hparameters, _, s₂, hblock, -⟩ := hcode
      exact ⟨f.name, s₁, _, sameNames_parameters N f.name hparameters, hblock⟩
    · exact ih hrest hf

/-- The generator has passed over the functions of a program with native code. -/
theorem exists_generation {p : Program} {code : List (Primitive c.registers)}
    (h : p.toNative c = .ok code) (hglobals : GlobalTable.ofProgram p = .ok N.globals)
    (hfunctions : FunctionTable.ofProgram p = .ok N.functions) :
    ∀ f ∈ p.functions, ∀ body, f.body = .statements body →
      (generation c N).block (bindingsScope [] f.parameters.reverse) body := by
  simp only [Program.toNative, except_bind_eq_ok, mapError_eq_ok] at h
  obtain ⟨globals, hglobals', functions, hfunctions', ⟨units, strings⟩, hunits, -⟩ := h
  cases hglobals.symm.trans hglobals'
  cases hfunctions.symm.trans hfunctions'
  exact fun f hf body hbody => exists_block hunits hf hbody

end Firestorm.Native
