import Firestorm.Proofs.Bytecode.Emission
import Firestorm.Proofs.Interpreter.Visits

/-!
# The names that the bytecode generator meets

The generator of bytecode passes over the text of a function and keeps the locals that it has met in
the layout of the frame. Wherever a run comes, the generator has been, with the declarations that
stand before in the text.

## Main definitions

* `Bytecode.emission`.

## Main results

* `Bytecode.descends_emission`, `Bytecode.exists_emission`.
* `Bytecode.looksUp_of_emitExpr`, `Bytecode.looksUp_of_emitStmt`: it has looked up the variables of
  the parts.
-/

namespace Firestorm.Bytecode

open Fallible Interpreter

/-- The generator has made code for a part of the text with the given names in its layout. -/
def emission (N : Names) : Pass where
  expr scope e := ∃ s r, EmitState.scope s = scope ∧ emitExpr N e s = .ok r
  arguments scope es := ∃ s r, EmitState.scope s = scope ∧ emitArguments N es s = .ok r
  stmt scope st := ∃ s r, EmitState.scope s = scope ∧ emitStmt N st s = .ok r
  block scope body := ∃ s r, EmitState.scope s = scope ∧ emitBlock N body s = .ok r

section

variable {N : Names} {s s' : EmitState} {code : List CodeLine}

theorem scope_of_emitExpr (hN : N.Keyed) {e : Expr} (h : emitExpr N e s = .ok (code, s')) :
    s'.scope = s.scope := by
  rw [(emitExpr_eq_ok hN e h).2.2, EmitState.scope_noting]

theorem scope_of_freshLabel {label : String} (h : freshLabel s = .ok (label, s')) :
    s'.scope = s.scope := by
  rw [(freshLabel_eq_ok h).2]
  rfl

theorem scope_of_emitBlock (hN : N.Keyed) {body : List Stmt}
    (h : emitBlock N body s = .ok (code, s')) : s'.scope = blockScope s.scope body :=
  (emitBlock_eq_ok hN body h).2.2.scope_eq

theorem scope_of_emitStmt (hN : N.Keyed) {st : Stmt} (h : emitStmt N st s = .ok (code, s')) :
    s'.scope = stmtScope s.scope st :=
  (emitStmt_eq_ok hN st h).2.2.scope_eq

end

/-- The generator goes on to all parts of the text. -/
theorem descends_emission {N : Names} (hN : N.Keyed) : (emission N).Descends where
  index := by
    rintro _ _ _ ⟨s, r, rfl, h⟩
    simp only [emitExpr, bind_eq_ok, discard_eq_ok] at h
    obtain ⟨_, s₁, ⟨d, hd⟩, _, s₂, hi, -⟩ := h
    obtain ⟨-, rfl⟩ := variableDatatype_eq_ok hd
    exact ⟨s₁, _, rfl, hi⟩
  call := by
    rintro _ _ _ ⟨s, r, rfl, h⟩
    simp only [emitExpr, bind_eq_ok] at h
    obtain ⟨f, s₁, hresolve, _, s₂, hes, -⟩ := h
    obtain ⟨-, rfl⟩ := ofSymbols_eq_ok.1 hresolve
    exact ⟨s₁, _, rfl, hes⟩
  binary := by
    rintro _ _ _ _ ⟨s, r, rfl, h⟩
    simp only [emitExpr, bind_eq_ok] at h
    obtain ⟨_, s₁, hleft, _, s₂, hright, -⟩ := h
    exact ⟨⟨s, _, rfl, hleft⟩, ⟨s₁, _, scope_of_emitExpr hN hleft, hright⟩⟩
  compare := by
    rintro _ _ _ _ ⟨s, r, rfl, h⟩
    simp only [emitExpr, bind_eq_ok] at h
    obtain ⟨_, s₁, hleft, _, s₂, hright, -⟩ := h
    exact ⟨⟨s, _, rfl, hleft⟩, ⟨s₁, _, scope_of_emitExpr hN hleft, hright⟩⟩
  unary := by
    rintro _ op _ ⟨s, r, rfl, h⟩
    cases op with
    | plus => exact ⟨s, r, rfl, h⟩
    | minus | bitNot =>
      simp only [emitExpr, bind_eq_ok] at h
      obtain ⟨_, s₁, ho, -⟩ := h
      exact ⟨s, _, rfl, ho⟩
  not := by
    rintro _ _ ⟨s, r, rfl, h⟩
    simp only [emitExpr, bind_eq_ok] at h
    obtain ⟨_, s₁, ho, -⟩ := h
    exact ⟨s, _, rfl, ho⟩
  arguments := by
    rintro _ _ _ ⟨s, r, rfl, h⟩
    simp only [emitArguments, bind_eq_ok] at h
    obtain ⟨_, s₁, he, _, s₂, hes, -⟩ := h
    exact ⟨⟨s, _, rfl, he⟩, ⟨s₁, _, scope_of_emitExpr hN he, hes⟩⟩
  declare := by
    rintro _ _ _ ⟨s, r, rfl, h⟩
    simp only [emitStmt, bind_eq_ok] at h
    obtain ⟨_, s₁, hdeclare, _, s₂, he, -⟩ := h
    exact ⟨s₁, _, (declareLocal_eq_ok hdeclare).1, he⟩
  assign := by
    rintro _ _ _ ⟨s, r, rfl, h⟩
    simp only [emitStmt, bind_eq_ok, discard_eq_ok] at h
    obtain ⟨_, s₁, ⟨d, hd⟩, _, s₂, he, -⟩ := h
    obtain ⟨-, rfl⟩ := variableDatatype_eq_ok hd
    exact ⟨s₁, _, rfl, he⟩
  assignIndexed := by
    rintro _ _ _ _ ⟨s, r, rfl, h⟩
    simp only [emitStmt, bind_eq_ok, unless_eq_ok] at h
    obtain ⟨d, s₁, hd, -, _, s₂, hi, _, s₃, he, -⟩ := h
    obtain ⟨-, rfl⟩ := variableDatatype_eq_ok hd
    exact ⟨⟨s₁, _, rfl, hi⟩, ⟨s₂, _, scope_of_emitExpr hN hi, he⟩⟩
  return_ := by
    rintro _ _ ⟨s, r, rfl, h⟩
    simp only [emitStmt, bind_eq_ok] at h
    obtain ⟨_, s₁, he, -⟩ := h
    exact ⟨s, _, rfl, he⟩
  ifThen := by
    rintro _ _ _ ⟨s, r, rfl, h⟩
    simp only [emitStmt, bind_eq_ok] at h
    obtain ⟨_, s₁, hc, _, s₂, hl, _, s₃, hb, -⟩ := h
    have hscope := (scope_of_freshLabel hl).trans (scope_of_emitExpr hN hc)
    exact ⟨⟨s, _, rfl, hc⟩, ⟨s₂, _, hscope, hb⟩⟩
  ifElse := by
    rintro _ _ _ _ ⟨s, r, rfl, h⟩
    simp only [emitStmt, bind_eq_ok] at h
    obtain ⟨_, s₁, hc, _, s₂, hl, _, s₃, hb, _, s₄, hl', _, s₅, ho, -⟩ := h
    have hscope := (scope_of_freshLabel hl).trans (scope_of_emitExpr hN hc)
    have hscope' := (scope_of_freshLabel hl').trans (scope_of_emitBlock hN hb)
    rw [hscope] at hscope'
    exact ⟨⟨s, _, rfl, hc⟩, ⟨s₂, _, hscope, hb⟩, ⟨s₄, _, hscope', ho⟩⟩
  while_ := by
    rintro _ _ _ ⟨s, r, rfl, h⟩
    simp only [emitStmt, bind_eq_ok] at h
    obtain ⟨_, s₁, hl, _, s₂, hc, _, s₃, hl', _, s₄, hb, -⟩ := h
    have hscope := (scope_of_emitExpr hN hc).trans (scope_of_freshLabel hl)
    exact ⟨⟨s₁, _, scope_of_freshLabel hl, hc⟩, ⟨s₃, _, (scope_of_freshLabel hl').trans hscope, hb⟩⟩
  doWhile := by
    rintro _ _ _ ⟨s, r, rfl, h⟩
    simp only [emitStmt, bind_eq_ok] at h
    obtain ⟨_, s₁, hl, _, s₂, hb, _, s₃, hc, -⟩ := h
    have hscope := scope_of_emitBlock hN hb
    rw [scope_of_freshLabel hl] at hscope
    exact ⟨⟨s₁, _, scope_of_freshLabel hl, hb⟩, ⟨s₂, _, hscope, hc⟩⟩
  loop := by
    rintro _ _ ⟨s, r, rfl, h⟩
    simp only [emitStmt, bind_eq_ok] at h
    obtain ⟨_, s₁, hl, _, s₂, hb, -⟩ := h
    exact ⟨s₁, _, scope_of_freshLabel hl, hb⟩
  discarded := by
    rintro _ _ ⟨s, r, rfl, h⟩
    simp only [emitStmt, bind_eq_ok] at h
    obtain ⟨_, s₁, he, -⟩ := h
    exact ⟨s, _, rfl, he⟩
  block := by
    rintro _ _ _ ⟨s, r, rfl, h⟩
    simp only [emitBlock, bind_eq_ok] at h
    obtain ⟨_, s₁, hst, _, s₂, hrest, -⟩ := h
    exact ⟨⟨s, _, rfl, hst⟩, ⟨s₁, _, scope_of_emitStmt hN hst, hrest⟩⟩

theorem exists_emitBlock {N : Names} {n : Nat} {g g' : CallGraph} {fs : List FunctionDef}
    {sections : List Section} (h : emitFunctions N n g fs = .ok (sections, g')) {f : FunctionDef}
    (hf : f ∈ fs) {body : List Stmt} (hbody : f.body = .statements body) :
    (emission N).block (bindingsScope [] f.parameters.reverse) body := by
  induction fs generalizing n g g' sections with
  | nil => cases hf
  | cons f' rest ih =>
    unfold emitFunctions at h
    rcases List.mem_cons.1 hf with rfl | hf
    · simp only [hbody, except_bind_eq_ok] at h
      obtain ⟨⟨code, callees, n'⟩, hfunction, -⟩ := h
      simp only [emitFunction, except_bind_eq_ok] at hfunction
      obtain ⟨⟨lines, s⟩, hlines, -⟩ := hfunction
      obtain ⟨s₁, ps, s₂, b, hps, hb, -, hscope, -, -⟩ := emitBody_eq_ok hlines
      obtain ⟨-, hpass⟩ := emitParameters_eq_ok _ hps
      exact ⟨s₂, _, by rw [hpass.scope_eq, hscope]; rfl, hb⟩
    · cases hbody' : f'.body with
      | assembly text =>
        simp only [hbody'] at h
        exact ih h hf
      | statements body' =>
        simp only [hbody', except_bind_eq_ok] at h
        obtain ⟨⟨code, callees, n'⟩, -, ⟨sections', g''⟩, hrest, -⟩ := h
        exact ih hrest hf

/-- With the given names in its layout, the generator has looked up a variable, as a local or
not. -/
def LooksUp (N : Names) (scope : List String) (name : String) (isLocal : Bool) : Prop :=
  ∃ s d, EmitState.scope s = scope ∧ variableDatatype N name s = .ok (d, s) ∧
    (s.layout.get? name).isSome = isLocal

section

variable {N : Names} {scope : List String} {name : String}

/-- The generator takes a name for that of a local if it is among the names before it. -/
theorem looksUp_of_variableDatatype {s s' : EmitState} {d : Datatype} (hs : s.scope = scope)
    (h : variableDatatype N name s = .ok (d, s')) : LooksUp N scope name (name ∈ scope) := by
  obtain ⟨-, rfl⟩ := variableDatatype_eq_ok h
  refine ⟨s', d, hs, h, ?_⟩
  rw [Bool.eq_iff_iff, decide_eq_true_iff, ← hs]
  exact Table.isSome_get?_iff

theorem looksUp_of_emitExpr {e : Expr} (he : (emission N).expr scope e)
    (hread : e.read? = some name) : LooksUp N scope name (name ∈ scope) := by
  obtain ⟨s, r, hs, h⟩ := he
  cases e with
  | lookup name' | index name' i =>
    obtain rfl : name' = name := Option.some_inj.1 hread
    simp only [emitExpr, bind_eq_ok, discard_eq_ok] at h
    obtain ⟨_, s₁, ⟨d, hd⟩, -⟩ := h
    exact looksUp_of_variableDatatype hs hd
  | _ => cases hread

theorem looksUp_of_emitStmt {st : Stmt} (hst : (emission N).stmt scope st)
    (htarget : st.target? = some name) : LooksUp N scope name (name ∈ scope) := by
  obtain ⟨s, r, hs, h⟩ := hst
  cases st with
  | assign target e | increment target | decrement target =>
    obtain rfl : target = name := Option.some_inj.1 htarget
    simp only [emitStmt, bind_eq_ok, discard_eq_ok] at h
    obtain ⟨_, s₁, ⟨d, hd⟩, -⟩ := h
    exact looksUp_of_variableDatatype hs hd
  | assignIndexed target i e =>
    obtain rfl : target = name := Option.some_inj.1 htarget
    simp only [emitStmt, bind_eq_ok] at h
    obtain ⟨d, s₁, hd, -⟩ := h
    exact looksUp_of_variableDatatype hs hd
  | _ => cases htarget

end

/-- A program with bytecode has tables of its names, and the generator has passed over its
functions. -/
theorem exists_emission {p : Program} {sections : List Section} (h : p.toBytecode = .ok sections) :
    ∃ N : Names, GlobalTable.ofProgram p = .ok N.globals ∧
      FunctionTable.ofProgram p = .ok N.functions ∧
      ∀ f ∈ p.functions, ∀ body, f.body = .statements body →
        (emission N).block (bindingsScope [] f.parameters.reverse) body := by
  simp only [Program.toBytecode, except_bind_eq_ok, mapError_eq_ok] at h
  obtain ⟨globals, hglobals, functions, hfunctions, ⟨all, graph⟩, hall, -⟩ := h
  exact ⟨⟨globals, functions⟩, hglobals, hfunctions,
    fun f hf body hbody => exists_emitBlock hall hf hbody⟩

end Firestorm.Bytecode
