import Firestorm.Proofs.Bytecode.Code
import Firestorm.Proofs.Fallible

/-!
# What the generation of bytecode yields

Generation succeeds only if the names of a program are in scope, and then it yields the code that
the text of the program determines. It notes the functions that the code invokes and the locals that
it declares.

## Main definitions

* `Bytecode.invokes`, `Bytecode.EmitState.Passes`.

## Main results

* `Bytecode.emitExpr_eq_ok`, `Bytecode.emitStmt_eq_ok`, `Bytecode.emitBlock_eq_ok`: the code of the
  parts of a function.
* `Bytecode.emitFunctions_eq_ok`: the sections of functions.
-/

namespace Firestorm.Bytecode

open Fallible

variable {name : String}

/-- The function that a line invokes. -/
def invoked? : CodeLine → Option String
  | .instruction (.invoke callee) => some callee
  | _ => none

/-- The functions that code invokes, in order. -/
def invokes (code : List CodeLine) : List String :=
  code.filterMap invoked?

@[simp] theorem invokes_append (code more : List CodeLine) :
    invokes (code ++ more) = invokes code ++ invokes more :=
  List.filterMap_append

@[simp] theorem invokes_nil : invokes [] = [] := rfl

@[simp] theorem invokes_cons (line : CodeLine) (code : List CodeLine) :
    invokes (line :: code) = (invoked? line).toList ++ invokes code := by
  cases h : invoked? line <;> simp [invokes, h]

@[simp] theorem invoked?_literal (value : Literal) : invoked? (literal value) = none := by
  cases value <;> rfl

attribute [local simp] access plain number jump jumpTo numbered invoked?

/-- The names of the locals declared so far. -/
def EmitState.scope (s : EmitState) : List String := s.layout.slots.names

/-- The state behind code, with the functions that the code invokes. -/
def EmitState.noting (s : EmitState) (code : List CodeLine) : EmitState :=
  { s with callees := (invokes code).reverse ++ s.callees }

@[simp] theorem EmitState.noting_noting (s : EmitState) (code more : List CodeLine) :
    (s.noting code).noting more = s.noting (code ++ more) := by
  simp [noting]

@[simp] theorem EmitState.scope_noting (s : EmitState) (code : List CodeLine) :
    (s.noting code).scope = s.scope := rfl

section

variable {N : Names} {s s' : EmitState} {code : List CodeLine}

theorem ofSymbols_eq_ok {α : Type} {x : Except SymbolError α} {a : α} :
    ofSymbols x s = .ok (a, s') ↔ x = .ok a ∧ s' = s := by
  unfold ofSymbols
  cases x with
  | ok b => rw [pure_eq_ok, Except.ok.injEq, eq_comm (a := s)]
  | error e => simp [throw_ne_ok]

theorem freshLabel_eq_ok {label : String} (h : freshLabel s = .ok (label, s')) :
    label = toString s.nextLabel ∧ s' = { s with nextLabel := s.nextLabel + 1 } := by
  cases modifyGet_eq_ok.1 h
  exact ⟨rfl, rfl⟩

theorem noteCallee_eq_ok {u : Unit} (h : noteCallee name s = .ok (u, s')) :
    s' = { s with callees := name :: s.callees } := by
  cases modify_eq_ok.1 h
  rfl

theorem variableDatatype_eq_ok {d : Datatype} (h : variableDatatype N name s = .ok (d, s')) :
    Named N s.scope name ∧ s' = s := by
  simp only [variableDatatype, bind_eq_ok] at h
  obtain ⟨a, s₁, hget, h⟩ := h
  cases get_eq_ok.1 hget
  cases hslot : s.layout.get? name with
  | some slot =>
    simp only [hslot] at h
    obtain ⟨rfl, rfl⟩ := pure_eq_ok.1 h
    exact ⟨.inl (Table.mem_names_of_get? hslot), rfl⟩
  | none =>
    cases hd : N.globals.get? name with
    | some d =>
      simp only [hslot, hd] at h
      obtain ⟨rfl, rfl⟩ := pure_eq_ok.1 h
      exact ⟨.inr ⟨_, hd⟩, rfl⟩
    | none =>
      simp only [hslot, hd] at h
      exact absurd h throw_ne_ok

/-- A declaration gives the layout of a frame a name that may be new. -/
theorem names_of_declare {layout layout' : FrameLayout} {b : Binding} {slot : Slot}
    (h : layout.declare b = .ok (slot, layout')) :
    layout'.slots.names = insertName layout.slots.names b.name := by
  unfold FrameLayout.declare at h
  split at h
  · next slot' hslot =>
    split at h
    · cases h
      exact (if_pos (Table.mem_names_of_get? hslot)).symm
    · cases h
  · cases h
    exact Table.names_set _ _ _

theorem declareLocal_eq_ok {b : Binding} {u : Unit} (h : declareLocal b s = .ok (u, s')) :
    s'.scope = insertName s.scope b.name ∧ s'.nextLabel = s.nextLabel ∧ s'.callees = s.callees := by
  simp only [declareLocal, bind_eq_ok] at h
  obtain ⟨a, s₁, hget, ⟨slot, layout⟩, s₂, hdeclare, h⟩ := h
  cases get_eq_ok.1 hget
  obtain ⟨hdeclare, rfl⟩ := ofSymbols_eq_ok.1 hdeclare
  cases modify_eq_ok.1 h
  exact ⟨names_of_declare hdeclare, rfl, rfl⟩

end

/-- Every function stands under its own name. -/
def Names.Keyed (N : Names) : Prop :=
  ∀ name f, N.functions.get? name = some f → f.name = name

/-! ### Expressions -/

mutual

/-- Generation of the code of an expression succeeds with that code only if the names are in scope,
and notes the functions that the code invokes. -/
theorem emitExpr_eq_ok {N : Names} (hN : N.Keyed) :
    ∀ (e : Expr) {s s' : EmitState} {code : List CodeLine}, emitExpr N e s = .ok (code, s') →
      code = exprCode N.functions e ∧ ExprScoped N s.scope e ∧ s' = s.noting code
  | .literal value, s, s', code, h => by
    simp only [emitExpr, pure_eq_ok] at h
    obtain ⟨rfl, rfl⟩ := h
    exact ⟨rfl, exprScoped_literal, by simp [EmitState.noting, -invoked?]⟩
  | .lookup name, s, s', code, h => by
    simp only [emitExpr, bind_eq_ok, discard_eq_ok, pure_eq_ok] at h
    obtain ⟨u, s₁, ⟨d, hd⟩, rfl, rfl⟩ := h
    obtain ⟨hname, rfl⟩ := variableDatatype_eq_ok hd
    exact ⟨rfl, exprScoped_lookup.2 hname, rfl⟩
  | .index name i, s, s', code, h => by
    simp only [emitExpr, bind_eq_ok, discard_eq_ok, pure_eq_ok] at h
    obtain ⟨u, s₁, ⟨d, hd⟩, a, s₂, ha, rfl, rfl⟩ := h
    obtain ⟨hname, rfl⟩ := variableDatatype_eq_ok hd
    obtain ⟨rfl, hi, rfl⟩ := emitExpr_eq_ok hN i ha
    exact ⟨rfl, exprScoped_index.2 ⟨hname, hi⟩, by simp [EmitState.noting]⟩
  | .call callee arguments, s, s', code, h => by
    simp only [emitExpr, bind_eq_ok] at h
    obtain ⟨f, s₁, hresolve, a, s₂, ha, h⟩ := h
    obtain ⟨hf, rfl⟩ := ofSymbols_eq_ok.1 hresolve
    obtain ⟨hget, hlength⟩ := FunctionTable.resolve_eq_ok.1 hf
    obtain ⟨rfl, harguments, rfl⟩ := emitArguments_eq_ok hN arguments ha
    obtain rfl := hN _ _ hget
    have hscoped := exprScoped_call.2 ⟨⟨f, hget, hlength⟩, harguments⟩
    cases hassembly : f.attributes.assembly with
    | true =>
      simp only [hassembly, if_true, pure_eq_ok] at h
      obtain ⟨rfl, rfl⟩ := h
      refine ⟨?_, hscoped, by simp [EmitState.noting, invoked?]⟩
      simp [exprCode, callLine, isNative, hget, hassembly]
    | false =>
      simp only [hassembly, Bool.false_eq_true, if_false, bind_eq_ok, pure_eq_ok] at h
      obtain ⟨u, s₃, hnote, rfl, rfl⟩ := h
      obtain rfl := noteCallee_eq_ok hnote
      refine ⟨?_, hscoped, by simp [EmitState.noting, invoked?]⟩
      simp [exprCode, callLine, isNative, hget, hassembly]
  | .binary _ left right, s, s', code, h | .compare _ left right, s, s', code, h => by
    simp only [emitExpr, bind_eq_ok, pure_eq_ok] at h
    obtain ⟨a, s₁, ha, b, s₂, hb, rfl, rfl⟩ := h
    obtain ⟨rfl, hl, rfl⟩ := emitExpr_eq_ok hN left ha
    obtain ⟨rfl, hr, rfl⟩ := emitExpr_eq_ok hN right hb
    exact ⟨rfl, by simp [show ExprScoped N s.scope right from hr, hl], by simp [EmitState.noting]⟩
  | .unary .plus operand, s, s', code, h => by
    simp only [emitExpr] at h
    simpa only [exprScoped_unary, exprCode] using emitExpr_eq_ok hN operand h
  | .unary .minus operand, s, s', code, h | .unary .bitNot operand, s, s', code, h
  | .not operand, s, s', code, h => by
    simp only [emitExpr, bind_eq_ok, pure_eq_ok] at h
    obtain ⟨a, s₁, ha, rfl, rfl⟩ := h
    obtain ⟨rfl, ho, rfl⟩ := emitExpr_eq_ok hN operand ha
    exact ⟨rfl, by simpa using ho, by simp [EmitState.noting]⟩

theorem emitArguments_eq_ok {N : Names} (hN : N.Keyed) :
    ∀ (es : List Expr) {s s' : EmitState} {code : List CodeLine},
    emitArguments N es s = .ok (code, s') →
      code = argumentsCode N.functions es ∧ (∀ e ∈ es, ExprScoped N s.scope e) ∧ s' = s.noting code
  | [], s, s', code, h => by
    simp only [emitArguments, pure_eq_ok] at h
    obtain ⟨rfl, rfl⟩ := h
    exact ⟨rfl, by simp, rfl⟩
  | e :: es, s, s', code, h => by
    simp only [emitArguments, bind_eq_ok, pure_eq_ok] at h
    obtain ⟨a, s₁, ha, b, s₂, hb, rfl, rfl⟩ := h
    obtain ⟨rfl, he, rfl⟩ := emitExpr_eq_ok hN e ha
    obtain ⟨rfl, hes, rfl⟩ := emitArguments_eq_ok hN es hb
    exact ⟨rfl, List.forall_mem_cons.2 ⟨he, hes⟩, by simp⟩

end

/-! ### Statements -/

/-- The state behind the code of statements: it has the labels, the locals and the callees of that
code. -/
structure EmitState.Passes (s s' : EmitState) (labels : Nat) (scope : List String)
    (code : List CodeLine) : Prop where
  nextLabel_eq : s'.nextLabel = s.nextLabel + labels
  scope_eq : s'.scope = scope
  callees_eq : s'.callees = (invokes code).reverse ++ s.callees

mutual

theorem emitStmt_eq_ok {N : Names} (hN : N.Keyed) :
    ∀ (st : Stmt) {s s' : EmitState} {code : List CodeLine}, emitStmt N st s = .ok (code, s') →
      code = stmtCode N.functions st s.nextLabel ∧ StmtScoped N s.scope st ∧
        s.Passes s' (stmtLabels st) (stmtScope s.scope st) code
  | .declare b none, s, s', code, h => by
    simp only [emitStmt, bind_eq_ok, pure_eq_ok] at h
    obtain ⟨u, s₁, hdeclare, rfl, rfl⟩ := h
    obtain ⟨hscope, hlabel, hcallees⟩ := declareLocal_eq_ok hdeclare
    exact ⟨rfl, by simp [StmtScoped], ⟨hlabel, hscope, by simp [hcallees]⟩⟩
  | .declare b (some e), s, s', code, h => by
    simp only [emitStmt, bind_eq_ok, pure_eq_ok] at h
    obtain ⟨u, s₁, hdeclare, a, s₂, ha, rfl, rfl⟩ := h
    obtain ⟨hscope, hlabel, hcallees⟩ := declareLocal_eq_ok hdeclare
    obtain ⟨rfl, he, rfl⟩ := emitExpr_eq_ok hN e ha
    rw [hscope] at he
    exact ⟨rfl, by simpa [StmtScoped] using he,
      ⟨hlabel, hscope, by simp [EmitState.noting, hcallees]⟩⟩
  | .assign target value, s, s', code, h => by
    simp only [emitStmt, bind_eq_ok, discard_eq_ok, pure_eq_ok] at h
    obtain ⟨u, s₁, ⟨d, hd⟩, a, s₂, ha, rfl, rfl⟩ := h
    obtain ⟨htarget, rfl⟩ := variableDatatype_eq_ok hd
    obtain ⟨rfl, he, rfl⟩ := emitExpr_eq_ok hN value ha
    exact ⟨rfl, ⟨htarget, he⟩, ⟨rfl, rfl, by simp [EmitState.noting]⟩⟩
  | .assignIndexed target i value, s, s', code, h => by
    simp only [emitStmt, bind_eq_ok, unless_eq_ok, pure_eq_ok] at h
    obtain ⟨d, s₁, hd, -, a, s₂, ha, a', s₃, ha', rfl, rfl⟩ := h
    obtain ⟨htarget, rfl⟩ := variableDatatype_eq_ok hd
    obtain ⟨rfl, hi, rfl⟩ := emitExpr_eq_ok hN i ha
    obtain ⟨rfl, he, rfl⟩ := emitExpr_eq_ok hN value ha'
    exact ⟨rfl, ⟨htarget, hi, he⟩, ⟨rfl, rfl, by simp [EmitState.noting]⟩⟩
  | .increment _, s, s', code, h | .decrement _, s, s', code, h => by
    simp only [emitStmt, bind_eq_ok, discard_eq_ok, pure_eq_ok] at h
    obtain ⟨u, s₁, ⟨d, hd⟩, rfl, rfl⟩ := h
    obtain ⟨htarget, rfl⟩ := variableDatatype_eq_ok hd
    exact ⟨rfl, htarget, ⟨rfl, rfl, rfl⟩⟩
  | .return_ none, s, s', code, h => by
    simp only [emitStmt, pure_eq_ok] at h
    obtain ⟨rfl, rfl⟩ := h
    exact ⟨rfl, by simp [StmtScoped], ⟨rfl, rfl, rfl⟩⟩
  | .return_ (some e), s, s', code, h => by
    simp only [emitStmt, bind_eq_ok, pure_eq_ok] at h
    obtain ⟨a, s₁, ha, rfl, rfl⟩ := h
    obtain ⟨rfl, he, rfl⟩ := emitExpr_eq_ok hN e ha
    exact ⟨rfl, by simpa [StmtScoped] using he, ⟨rfl, rfl, by simp [EmitState.noting]⟩⟩
  | .expr e, s, s', code, h => by
    simp only [emitStmt, bind_eq_ok, pure_eq_ok] at h
    obtain ⟨a, s₁, ha, rfl, rfl⟩ := h
    obtain ⟨rfl, he, rfl⟩ := emitExpr_eq_ok hN e ha
    exact ⟨rfl, he, ⟨rfl, rfl, by simp [EmitState.noting]⟩⟩
  | .ifThen condition body, s, s', code, h => by
    simp only [emitStmt, bind_eq_ok, pure_eq_ok] at h
    obtain ⟨a, s₁, ha, l, s₂, hl, b, s₃, hb, rfl, rfl⟩ := h
    obtain ⟨rfl, he, rfl⟩ := emitExpr_eq_ok hN condition ha
    obtain ⟨rfl, rfl⟩ := freshLabel_eq_ok hl
    obtain ⟨rfl, hbody, hpass⟩ := emitBlock_eq_ok hN body hb
    refine ⟨rfl, ⟨he, hbody⟩, ?_, hpass.scope_eq, ?_⟩
    · rw [hpass.nextLabel_eq, stmtLabels]
      exact Nat.add_assoc ..
    · rw [hpass.callees_eq]
      simp [EmitState.noting]
  | .ifElse condition body otherwise, s, s', code, h => by
    simp only [emitStmt, bind_eq_ok, pure_eq_ok] at h
    obtain ⟨a, s₁, ha, l, s₂, hl, b, s₃, hb, l', s₄, hl', b', s₅, hb', rfl, rfl⟩ := h
    obtain ⟨rfl, he, rfl⟩ := emitExpr_eq_ok hN condition ha
    obtain ⟨rfl, rfl⟩ := freshLabel_eq_ok hl
    obtain ⟨rfl, hbody, hpass⟩ := emitBlock_eq_ok hN body hb
    obtain ⟨rfl, rfl⟩ := freshLabel_eq_ok hl'
    obtain ⟨rfl, hbody', hpass'⟩ := emitBlock_eq_ok hN otherwise hb'
    have hscope : EmitState.scope { s₃ with nextLabel := s₃.nextLabel + 1 } =
        blockScope s.scope body := hpass.scope_eq
    rw [hscope] at hbody'
    refine ⟨?_, ⟨he, hbody, hbody'⟩, ?_, ?_, ?_⟩
    · rw [stmtCode, hpass.nextLabel_eq]
      rfl
    · rw [hpass'.nextLabel_eq, stmtLabels, hpass.nextLabel_eq]
      simp only [EmitState.noting]
      omega
    · rw [hpass'.scope_eq, hscope, stmtScope]
    · rw [hpass'.callees_eq, hpass.callees_eq]
      simp [EmitState.noting]
  | .while_ condition body, s, s', code, h => by
    simp only [emitStmt, bind_eq_ok, pure_eq_ok] at h
    obtain ⟨l, s₁, hl, a, s₂, ha, l', s₃, hl', b, s₄, hb, rfl, rfl⟩ := h
    obtain ⟨rfl, rfl⟩ := freshLabel_eq_ok hl
    obtain ⟨rfl, he, rfl⟩ := emitExpr_eq_ok hN condition ha
    obtain ⟨rfl, rfl⟩ := freshLabel_eq_ok hl'
    obtain ⟨rfl, hbody, hpass⟩ := emitBlock_eq_ok hN body hb
    refine ⟨rfl, ⟨he, hbody⟩, ?_, hpass.scope_eq, ?_⟩
    · rw [hpass.nextLabel_eq, stmtLabels]
      simp only [EmitState.noting]
      omega
    · rw [hpass.callees_eq]
      simp [EmitState.noting]
  | .doWhile body condition, s, s', code, h => by
    simp only [emitStmt, bind_eq_ok, pure_eq_ok] at h
    obtain ⟨l, s₁, hl, b, s₂, hb, a, s₃, ha, rfl, rfl⟩ := h
    obtain ⟨rfl, rfl⟩ := freshLabel_eq_ok hl
    obtain ⟨rfl, hbody, hpass⟩ := emitBlock_eq_ok hN body hb
    obtain ⟨rfl, he, rfl⟩ := emitExpr_eq_ok hN condition ha
    rw [hpass.scope_eq] at he
    refine ⟨rfl, ⟨hbody, he⟩, ?_, hpass.scope_eq, ?_⟩
    · rw [EmitState.noting, hpass.nextLabel_eq, stmtLabels]
      exact Nat.add_assoc ..
    · rw [EmitState.noting, hpass.callees_eq]
      simp
  | .loop body, s, s', code, h => by
    simp only [emitStmt, bind_eq_ok, pure_eq_ok] at h
    obtain ⟨l, s₁, hl, b, s₂, hb, rfl, rfl⟩ := h
    obtain ⟨rfl, rfl⟩ := freshLabel_eq_ok hl
    obtain ⟨rfl, hbody, hpass⟩ := emitBlock_eq_ok hN body hb
    refine ⟨rfl, hbody, ?_, hpass.scope_eq, ?_⟩
    · rw [hpass.nextLabel_eq, stmtLabels]
      exact Nat.add_assoc ..
    · rw [hpass.callees_eq]
      simp

theorem emitBlock_eq_ok {N : Names} (hN : N.Keyed) :
    ∀ (body : List Stmt) {s s' : EmitState} {code : List CodeLine},
    emitBlock N body s = .ok (code, s') →
      code = blockCode N.functions body s.nextLabel ∧ BlockScoped N s.scope body ∧
        s.Passes s' (blockLabels body) (blockScope s.scope body) code
  | [], s, s', code, h => by
    simp only [emitBlock, pure_eq_ok] at h
    obtain ⟨rfl, rfl⟩ := h
    exact ⟨rfl, trivial, ⟨rfl, rfl, rfl⟩⟩
  | st :: rest, s, s', code, h => by
    simp only [emitBlock, bind_eq_ok, pure_eq_ok] at h
    obtain ⟨a, s₁, ha, b, s₂, hb, rfl, rfl⟩ := h
    obtain ⟨rfl, hst, hpass⟩ := emitStmt_eq_ok hN st ha
    obtain ⟨rfl, hrest, hpass'⟩ := emitBlock_eq_ok hN rest hb
    rw [hpass.scope_eq] at hrest hpass'
    refine ⟨?_, ⟨hst, hrest⟩, ?_, hpass'.scope_eq, ?_⟩
    · rw [blockCode, hpass.nextLabel_eq]
    · rw [hpass'.nextLabel_eq, hpass.nextLabel_eq, blockLabels, Nat.add_assoc]
    · rw [hpass'.callees_eq, hpass.callees_eq]
      simp

end

/-! ### Functions -/

theorem mem_bindingsScope {scope : List String} {bs : List Binding} :
    name ∈ bindingsScope scope bs ↔ name ∈ scope ∨ ∃ b ∈ bs, b.name = name := by
  induction bs generalizing scope with
  | nil => simp [bindingsScope]
  | cons b rest ih => simp [bindingsScope, ih, mem_insertName, or_assoc, eq_comm]

theorem emitParameters_eq_ok (bs : List Binding) {s s' : EmitState} {code : List CodeLine}
    (h : emitParameters bs s = .ok (code, s')) :
    code = parametersCode bs ∧ s.Passes s' 0 (bindingsScope s.scope bs) [] := by
  induction bs generalizing s code with
  | nil =>
    simp only [emitParameters, pure_eq_ok] at h
    obtain ⟨rfl, rfl⟩ := h
    exact ⟨rfl, rfl, rfl, rfl⟩
  | cons b rest ih =>
    simp only [emitParameters, bind_eq_ok, pure_eq_ok] at h
    obtain ⟨u, s₁, hdeclare, a, s₂, ha, rfl, rfl⟩ := h
    obtain ⟨hscope, hlabel, hcallees⟩ := declareLocal_eq_ok hdeclare
    obtain ⟨rfl, hpass⟩ := ih ha
    refine ⟨rfl, by rw [hpass.nextLabel_eq, hlabel], ?_, ?_⟩
    · rw [hpass.scope_eq, hscope, bindingsScope]
    · rw [hpass.callees_eq, hcallees]

@[simp] theorem invokes_parametersCode (bs : List Binding) : invokes (parametersCode bs) = [] := by
  induction bs with
  | nil => rfl
  | cons b rest ih => simp [parametersCode, ih]

/-- The names that the section of a function calls. -/
def functionCallees (F : FunctionTable) (f : FunctionDef) (body : List Stmt) (n : Nat) :
    List String :=
  (invokes (functionCode F f body n)).reverse ++
    if f.attributes.noreturn then [Program.unreachable] else []

variable {N : Names}

theorem emitBody_eq_ok {f : FunctionDef} {body : List Stmt} {s s' : EmitState}
    {code : List CodeLine} (h : emitBody N f body s = .ok (code, s')) :
    ∃ s₁ ps s₂ b, emitParameters f.parameters.reverse s₁ = .ok (ps, s₂) ∧
      emitBlock N body s₂ = .ok (b, s') ∧ s₁.nextLabel = s.nextLabel ∧ s₁.scope = s.scope ∧
      s₁.callees = (if f.attributes.noreturn then [Program.unreachable] else []) ++ s.callees ∧
      code = (if f.attributes.noreturn then [plain .noreturn] else []) ++ ps ++ b ++
        [number 0, plain .return_] := by
  unfold emitBody at h
  cases hreturn : f.attributes.noreturn with
  | true =>
    simp only [hreturn, if_true, bind_eq_ok, pure_eq_ok] at h
    obtain ⟨u, s₁, hnote, mark, s₂, ⟨rfl, rfl⟩, ps, s₃, hps, b, s₄, hb, rfl, rfl⟩ := h
    obtain rfl := noteCallee_eq_ok hnote
    exact ⟨_, ps, s₃, b, hps, hb, rfl, rfl, rfl, rfl⟩
  | false =>
    simp only [hreturn, Bool.false_eq_true, if_false, bind_eq_ok, pure_eq_ok] at h
    obtain ⟨mark, s₂, ⟨rfl, rfl⟩, ps, s₃, hps, b, s₄, hb, rfl, rfl⟩ := h
    exact ⟨_, ps, s₃, b, hps, hb, rfl, rfl, rfl, rfl⟩

theorem emitFunction_eq_ok (hN : N.Keyed) {n n' : Nat} {f : FunctionDef} {body : List Stmt}
    {code : Section} {callees : List String}
    (h : emitFunction N n f body = .ok (code, callees, n')) :
    code = functionSection N.functions f body n ∧ callees = functionCallees N.functions f body n ∧
      n' = n + blockLabels body ∧ BlockScoped N (bindingsScope [] f.parameters.reverse) body := by
  simp only [emitFunction, except_bind_eq_ok] at h
  obtain ⟨⟨lines, s⟩, hbody, h⟩ := h
  cases h
  obtain ⟨s₁, ps, s₂, b, hps, hb, hlabel, hscope, hcallees, rfl⟩ := emitBody_eq_ok hbody
  obtain ⟨rfl, hpass⟩ := emitParameters_eq_ok _ hps
  obtain ⟨rfl, hscoped, hpass'⟩ := emitBlock_eq_ok hN body hb
  have hn : s₂.nextLabel = n := hpass.nextLabel_eq.trans hlabel
  rw [hpass.scope_eq, hscope] at hscoped
  refine ⟨?_, ?_, ?_, hscoped⟩
  · rw [functionSection, functionCode, hn]
  · rw [hpass'.callees_eq, hpass.callees_eq, hcallees, functionCallees, functionCode, hn]
    split <;> simp
  · rw [hpass'.nextLabel_eq, hn]

theorem emitFunctions_eq_ok (hN : N.Keyed) {n : Nat} {g g' : CallGraph} {fs : List FunctionDef}
    {sections : List Section} (h : emitFunctions N n g fs = .ok (sections, g')) :
    sections = functionSections N.functions n fs ∧
      ∀ f ∈ fs, ∀ body, f.body = .statements body →
        BlockScoped N (bindingsScope [] f.parameters.reverse) body := by
  induction fs generalizing n g sections with
  | nil =>
    cases h
    simp [functionSections]
  | cons f rest ih =>
    unfold emitFunctions at h
    cases hbody : f.body with
    | assembly text =>
      simp only [hbody] at h
      obtain ⟨rfl, hrest⟩ := ih h
      refine ⟨by rw [functionSections, hbody], List.forall_mem_cons.2 ⟨?_, hrest⟩⟩
      rintro body h'
      rw [hbody] at h'
      cases h'
    | statements body =>
      simp only [hbody, except_bind_eq_ok] at h
      obtain ⟨⟨code, callees, n'⟩, hf, ⟨sections', g''⟩, hfs, h⟩ := h
      cases h
      obtain ⟨rfl, rfl, rfl, hscoped⟩ := emitFunction_eq_ok hN hf
      obtain ⟨rfl, hrest⟩ := ih hfs
      refine ⟨by rw [functionSections, hbody], List.forall_mem_cons.2 ⟨?_, hrest⟩⟩
      rintro body' h'
      rw [hbody] at h'
      cases h'
      exact hscoped

end Firestorm.Bytecode
