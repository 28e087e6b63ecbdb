import Firestorm.Proofs.Bytecode.Code
import Firestorm.Proofs.Bytecode.Items

/-!
# Names in the code of a program

Where the names of a program are in scope, so are those of its code, line by line: a variable is
declared on a line before or a global, and a call is native exactly if its function says so. The
labels of a statement are different numbers of a range of its own, and jumps lead to labels of the
same statement.

## Main definitions

* `Bytecode.Naming.Fits`, `Bytecode.Naming.CodeFits`, `Bytecode.labelsOf`, `Bytecode.targetsOf`.

## Main results

* `Bytecode.codeFits_functionCode`, `Bytecode.labelsWithin_blockCode`,
  `Bytecode.mem_targetsOf_blockCode`, `Bytecode.declaredOf_functionCode`.
-/

namespace Firestorm.Bytecode

variable {line : CodeLine} {name : String} {f : FunctionDef} {code : List CodeLine}

namespace Naming

variable {N : Names} {k : Naming} {code : List CodeLine}

/-- The names of a line are in scope. -/
def Fits (N : Names) (k : Naming) : CodeLine → Prop
  | .label _ => True
  | .instruction i =>
    match i with
    | .access _ name => Named N k.locals name
    | .invoke callee => isNative N.functions callee = false ∧ ∃ f, N.functions.get? callee = some f
    | .invokeNative callee => isNative N.functions callee = true
    | _ => True

/-- The names of code are in scope, line by line. -/
def CodeFits (N : Names) : Naming → List CodeLine → Prop
  | _, [] => True
  | k, line :: code => k.Fits N line ∧ CodeFits N (k.after line) code

@[simp] theorem through_nil (k : Naming) : k.through [] = k := rfl

@[simp] theorem through_cons (k : Naming) (line : CodeLine) (code : List CodeLine) :
    k.through (line :: code) = (k.after line).through code := rfl

@[simp] theorem through_append (k : Naming) (code more : List CodeLine) :
    k.through (code ++ more) = (k.through code).through more :=
  List.foldl_append

theorem codeItems_append (sectionName : String) (k : Naming) (code more : List CodeLine) :
    k.codeItems sectionName (code ++ more) =
      k.codeItems sectionName code ++ (k.through code).codeItems sectionName more := by
  induction code generalizing k with
  | nil => rfl
  | cons line code ih =>
    rw [List.cons_append, codeItems, codeItems, ih, List.append_assoc, through_cons]

@[simp] theorem codeFits_nil (N : Names) (k : Naming) : CodeFits N k [] := trivial

@[simp] theorem codeFits_cons :
    CodeFits N k (line :: code) ↔ k.Fits N line ∧ CodeFits N (k.after line) code := Iff.rfl

@[simp] theorem codeFits_append {more : List CodeLine} :
    CodeFits N k (code ++ more) ↔ CodeFits N k code ∧ CodeFits N (k.through code) more := by
  induction code generalizing k with
  | nil => simp
  | cons line code ih => simp [ih, and_assoc]

theorem exists_fits_of_mem (h : k.CodeFits N code) (hline : line ∈ code) :
    ∃ k' : Naming, k'.Fits N line := by
  induction code generalizing k with
  | nil => cases hline
  | cons first code ih =>
    rcases List.mem_cons.1 hline with rfl | hline
    · exact ⟨k, h.1⟩
    · exact ih h.2 hline

@[simp] theorem after_access (k : Naming) (a : Access) (name : String) :
    k.after (access a name) = k := rfl

@[simp] theorem after_plain (k : Naming) (op : PlainOp) : k.after (plain op) = k := rfl

@[simp] theorem after_number (k : Naming) (value : Word) : k.after (number value) = k := rfl

@[simp] theorem after_literal (k : Naming) (value : Literal) : k.after (literal value) = k := by
  cases value <;> rfl

@[simp] theorem after_jumpTo (k : Naming) (kind : JumpKind) (n : Nat) :
    k.after (jumpTo kind n) = k := rfl

@[simp] theorem after_numbered (k : Naming) (n : Nat) : k.after (numbered n) = k := rfl

@[simp] theorem after_global (k : Naming) (b : Binding) :
    k.after (.instruction (.global b)) = { k with globals := insertName k.globals b.name } := rfl

@[simp] theorem fits_literal (N : Names) (k : Naming) (value : Literal) :
    k.Fits N (literal value) := by
  cases value <;> trivial

theorem fits_callLine {callee : String} (h : N.functions.get? callee = some f) :
    k.Fits N (callLine N.functions callee) := by
  unfold callLine
  split
  · next hnative => exact hnative
  · next hnative => exact ⟨by simpa using hnative, f, h⟩

end Naming

/-! ### Lines of expressions -/

/-- The lines that only statements have: labels, jumps and declarations. -/
def isStatementLine : CodeLine → Bool
  | .label _ | .instruction (.jump _ _) | .instruction (.global _) | .instruction (.variable_ _) =>
    true
  | _ => false

attribute [local simp] access plain number jumpTo jump numbered Naming.after Naming.Fits
  isStatementLine

theorem isStatementLine_of_mem_ownLines {F : FunctionTable} {part : Expr}
    (h : line ∈ ownLines F part) : isStatementLine line = false := by
  cases part with
  | literal value =>
    obtain rfl := List.mem_singleton.1 h
    cases value <;> rfl
  | call callee arguments =>
    obtain rfl := List.mem_singleton.1 h
    unfold callLine
    split <;> rfl
  | unary op operand =>
    cases op with
    | minus => rcases List.mem_pair.1 h with rfl | rfl <;> rfl
    | _ => simp_all [ownLines]
  | _ => simp_all [ownLines]

/-- The code of an expression neither places labels nor jumps nor declares. -/
theorem isStatementLine_of_mem_exprCode {F : FunctionTable} {e : Expr} (h : line ∈ exprCode F e) :
    isStatementLine line = false := by
  obtain ⟨part, -, hline⟩ := (mem_exprCode e).1 h
  exact isStatementLine_of_mem_ownLines hline

namespace Naming

variable {k : Naming}

theorem after_of_isStatementLine (h : isStatementLine line = false) : k.after line = k := by
  unfold after
  split
  · cases h
  · cases h
  · rfl

theorem through_of_forall (h : ∀ line ∈ code, isStatementLine line = false) :
    k.through code = k := by
  induction code with
  | nil => rfl
  | cons line code ih =>
    obtain ⟨hline, hcode⟩ := List.forall_mem_cons.1 h
    rw [through_cons, after_of_isStatementLine hline, ih hcode]

theorem codeFits_of_forall {N : Names} (h : ∀ line ∈ code, isStatementLine line = false)
    (hfits : ∀ line ∈ code, k.Fits N line) : k.CodeFits N code := by
  induction code with
  | nil => trivial
  | cons line code ih =>
    obtain ⟨hline, hcode⟩ := List.forall_mem_cons.1 h
    obtain ⟨hfit, hfits⟩ := List.forall_mem_cons.1 hfits
    rw [codeFits_cons, after_of_isStatementLine hline]
    exact ⟨hfit, ih hcode hfits⟩

end Naming

/-! ### Scopes behind code -/

section

variable (F : FunctionTable)

@[simp] theorem through_exprCode (k : Naming) (e : Expr) : k.through (exprCode F e) = k :=
  Naming.through_of_forall fun _ => isStatementLine_of_mem_exprCode

mutual

@[simp] theorem through_stmtCode : ∀ (k : Naming) (st : Stmt) (n : Nat),
    k.through (stmtCode F st n) = { k with locals := stmtScope k.locals st }
  | k, .declare _ none, _ | k, .declare _ (some _), _ | k, .assign .., _ | k, .assignIndexed .., _
  | k, .increment _, _ | k, .decrement _, _ | k, .return_ none, _ | k, .return_ (some _), _
  | k, .expr _, _ => by simp [stmtCode, stmtScope]
  | k, .ifThen _ body, _ | k, .while_ _ body, _ | k, .doWhile body _, _ | k, .loop body, _ => by
    simp [stmtCode, stmtScope, through_blockCode k body]
  | k, .ifElse condition body otherwise, n => by
    simp [stmtCode, stmtScope, through_blockCode k body, through_blockCode _ otherwise]

@[simp] theorem through_blockCode : ∀ (k : Naming) (body : List Stmt) (n : Nat),
    k.through (blockCode F body n) = { k with locals := blockScope k.locals body }
  | k, [], n => rfl
  | k, st :: rest, n => by
    simp [blockCode, blockScope, through_stmtCode k st, through_blockCode _ rest]

end

end

@[simp] theorem through_parametersCode (k : Naming) (bs : List Binding) :
    k.through (parametersCode bs) = { k with locals := bindingsScope k.locals bs } := by
  induction bs generalizing k with
  | nil => rfl
  | cons b rest ih => simp [parametersCode, bindingsScope, ih]

/-! ### Names of code -/

section

variable {N : Names}

theorem codeFits_exprCode (k : Naming) (e : Expr) (h : ExprScoped N k.locals e) :
    k.CodeFits N (exprCode N.functions e) := by
  refine Naming.codeFits_of_forall (fun _ => isStatementLine_of_mem_exprCode) fun line hline => ?_
  obtain ⟨part, hpart, hline⟩ := (mem_exprCode e).1 hline
  have hresolves := h part hpart
  cases part with
  | literal value =>
    obtain rfl := List.mem_singleton.1 hline
    exact Naming.fits_literal ..
  | call callee arguments =>
    obtain rfl := List.mem_singleton.1 hline
    obtain ⟨f, hf, -⟩ := hresolves
    exact Naming.fits_callLine hf
  | unary op operand =>
    cases op with
    | minus => rcases List.mem_pair.1 hline with rfl | rfl <;> trivial
    | _ => simp_all [ownLines]
  | _ => simp_all [ownLines, Resolves]

mutual

theorem codeFits_stmtCode : ∀ (k : Naming) (st : Stmt) (n : Nat), StmtScoped N k.locals st →
    k.CodeFits N (stmtCode N.functions st n)
  | k, .declare b none, n, _ => by simp [stmtCode]
  | k, .declare b (some e), n, h => by
    have he := codeFits_exprCode (N := N) ⟨k.globals, insertName k.locals b.name⟩ e (h e rfl)
    simp [stmtCode, he, Named]
  | k, .assign target value, n, h => by
    simp [stmtCode, codeFits_exprCode k value h.2, h.1]
  | k, .assignIndexed target i value, n, h => by
    simp [stmtCode, codeFits_exprCode k i h.2.1, codeFits_exprCode k value h.2.2, h.1]
  | k, .increment _, _, h | k, .decrement _, _, h => ⟨h, trivial⟩
  | k, .return_ none, n, _ => by simp [stmtCode]
  | k, .return_ (some e), n, h => by simp [stmtCode, codeFits_exprCode k e (h e rfl)]
  | k, .ifThen condition body, n, h => by
    simp [stmtCode, codeFits_exprCode k condition h.1, codeFits_blockCode k body _ h.2]
  | k, .ifElse condition body otherwise, n, h => by
    have ho := codeFits_blockCode ⟨k.globals, blockScope k.locals body⟩ otherwise
      (n + 1 + blockLabels body + 1) h.2.2
    simp [stmtCode, codeFits_exprCode k condition h.1, codeFits_blockCode k body _ h.2.1, ho]
  | k, .while_ condition body, n, h => by
    simp [stmtCode, codeFits_exprCode k condition h.1, codeFits_blockCode k body _ h.2]
  | k, .doWhile body condition, n, h => by
    have hc := codeFits_exprCode ⟨k.globals, blockScope k.locals body⟩ condition h.2
    simp [stmtCode, codeFits_blockCode k body _ h.1, hc]
  | k, .loop body, n, h => by simp [stmtCode, codeFits_blockCode k body _ h]
  | k, .expr e, n, h => by simp [stmtCode, codeFits_exprCode k e h]

theorem codeFits_blockCode :
    ∀ (k : Naming) (body : List Stmt) (n : Nat), BlockScoped N k.locals body →
    k.CodeFits N (blockCode N.functions body n)
  | k, [], n, _ => trivial
  | k, st :: rest, n, h => by
    have hrest := codeFits_blockCode ⟨k.globals, stmtScope k.locals st⟩ rest (n + stmtLabels st) h.2
    simp [blockCode, codeFits_stmtCode k st n h.1, hrest]

end

theorem codeFits_parametersCode (k : Naming) (bs : List Binding) :
    k.CodeFits N (parametersCode bs) := by
  induction bs generalizing k with
  | nil => trivial
  | cons b rest ih => simp [parametersCode, ih, Named]

/-- The names of the code of a function are in scope. -/
theorem codeFits_functionCode {body : List Stmt} (globals : List String) (n : Nat)
    (h : BlockScoped N (bindingsScope [] f.parameters.reverse) body) :
    Naming.CodeFits N ⟨globals, []⟩ (functionCode N.functions f body n) := by
  have hbody := codeFits_blockCode ⟨globals, bindingsScope [] f.parameters.reverse⟩ body n h
  unfold functionCode
  split <;> simp [codeFits_parametersCode, hbody]

end

/-! ### Labels of code -/

/-- The label that a line places. -/
def label? : CodeLine → Option String
  | .label name => some name
  | .instruction _ => none

/-- The labels that code places, in order. -/
def labelsOf (code : List CodeLine) : List String :=
  code.filterMap label?

@[simp] theorem labelsOf_append (code more : List CodeLine) :
    labelsOf (code ++ more) = labelsOf code ++ labelsOf more :=
  List.filterMap_append

@[simp] theorem labelsOf_nil : labelsOf [] = [] := rfl

@[simp] theorem labelsOf_instruction (i : Instruction) (code : List CodeLine) :
    labelsOf (.instruction i :: code) = labelsOf code := rfl

@[simp] theorem labelsOf_label (name : String) (code : List CodeLine) :
    labelsOf (.label name :: code) = name :: labelsOf code := rfl

theorem mem_labelsOf : name ∈ labelsOf code ↔ .label name ∈ code := by
  rw [labelsOf, List.mem_filterMap]
  constructor
  · rintro ⟨line, hmem, hline⟩
    cases line with
    | label name' =>
      cases hline
      exact hmem
    | instruction i => cases hline
  · exact fun hmem => ⟨_, hmem, rfl⟩

section

variable (F : FunctionTable)

@[simp] theorem labelsOf_exprCode (e : Expr) : labelsOf (exprCode F e) = [] := by
  refine List.filterMap_eq_nil_iff.2 fun line hline => ?_
  cases line with
  | label name => exact absurd (isStatementLine_of_mem_exprCode hline) (by simp [isStatementLine])
  | instruction i => rfl

end

/-- The labels of code are different numbers from `n` up to `n'`. -/
def LabelsWithin (code : List CodeLine) (n n' : Nat) : Prop :=
  ∃ ms : List Nat, labelsOf code = ms.map toString ∧ ms.Nodup ∧ ∀ m ∈ ms, n ≤ m ∧ m < n'

theorem labelsWithin_of_nil (h : labelsOf code = []) (n : Nat) : LabelsWithin code n n :=
  ⟨[], h, List.nodup_nil, by simp⟩

section

variable (F : FunctionTable)

mutual

theorem labelsWithin_stmtCode : ∀ (st : Stmt) (n : Nat),
    LabelsWithin (stmtCode F st n) n (n + stmtLabels st)
  | .declare _ none, n | .increment _, n | .decrement _, n | .return_ none, n =>
    labelsWithin_of_nil rfl n
  | .declare _ (some _), n | .assign .., n | .assignIndexed .., n | .return_ (some _),
    n | .expr _, n =>
    labelsWithin_of_nil (by simp [stmtCode]) n
  | .ifThen condition body, n => by
    obtain ⟨ms, hms, hnodup, hrange⟩ := labelsWithin_blockCode body (n + 1)
    refine ⟨ms ++ [n], by simp [stmtCode, hms], ?_, ?_⟩
    · grind
    · grind [stmtLabels]
  | .ifElse condition body otherwise, n => by
    obtain ⟨ms, hms, hnodup, hrange⟩ := labelsWithin_blockCode body (n + 1)
    obtain ⟨ms', hms', hnodup', hrange'⟩ :=
      labelsWithin_blockCode otherwise (n + 1 + blockLabels body + 1)
    refine ⟨ms ++ n :: (ms' ++ [n + 1 + blockLabels body]),
      by simp [stmtCode, hms, hms'], ?_, ?_⟩
    · grind
    · grind [stmtLabels]
  | .while_ condition body, n => by
    obtain ⟨ms, hms, hnodup, hrange⟩ := labelsWithin_blockCode body (n + 2)
    refine ⟨n :: (ms ++ [n + 1]), by simp [stmtCode, hms], ?_, ?_⟩
    · grind
    · grind [stmtLabels]
  | .doWhile body _, n | .loop body, n => by
    obtain ⟨ms, hms, hnodup, hrange⟩ := labelsWithin_blockCode body (n + 1)
    refine ⟨n :: ms, by simp [stmtCode, hms], ?_, ?_⟩
    · grind
    · grind [stmtLabels]

/-- The labels of statements are numbered without gaps, each placed once. -/
theorem labelsWithin_blockCode : ∀ (body : List Stmt) (n : Nat),
    LabelsWithin (blockCode F body n) n (n + blockLabels body)
  | [], n => labelsWithin_of_nil rfl n
  | st :: rest, n => by
    obtain ⟨ms, hms, hnodup, hrange⟩ := labelsWithin_stmtCode st n
    obtain ⟨ms', hms', hnodup', hrange'⟩ := labelsWithin_blockCode rest (n + stmtLabels st)
    refine ⟨ms ++ ms', by simp [blockCode, hms, hms'], ?_, ?_⟩
    · grind
    · grind [blockLabels]

end

end

/-- The label to which a line jumps. -/
def target? : CodeLine → Option String
  | .instruction (.jump _ label) => some label
  | _ => none

/-- The labels to which code jumps, in order. -/
def targetsOf (code : List CodeLine) : List String :=
  code.filterMap target?

@[simp] theorem targetsOf_nil : targetsOf [] = [] := rfl

@[simp] theorem targetsOf_append (code more : List CodeLine) :
    targetsOf (code ++ more) = targetsOf code ++ targetsOf more :=
  List.filterMap_append

@[simp] theorem targetsOf_cons (line : CodeLine) (code : List CodeLine) :
    targetsOf (line :: code) = (target? line).toList ++ targetsOf code := by
  cases h : target? line <;> simp [targetsOf, h]

theorem target?_of_isStatementLine (h : isStatementLine line = false) : target? line = none := by
  cases line with
  | label name => rfl
  | instruction i =>
    cases i with
    | jump kind label => cases h
    | _ => rfl

attribute [local simp] target?

@[simp] theorem targetsOf_exprCode (F : FunctionTable) (e : Expr) : targetsOf (exprCode F e) = [] :=
  List.filterMap_eq_nil_iff.2 fun _ hline =>
    target?_of_isStatementLine (isStatementLine_of_mem_exprCode hline)

@[simp] theorem targetsOf_parametersCode (bs : List Binding) :
    targetsOf (parametersCode bs) = [] := by
  induction bs with
  | nil => rfl
  | cons b rest ih => simp [parametersCode, ih]

@[simp] theorem labelsOf_parametersCode (bs : List Binding) :
    labelsOf (parametersCode bs) = [] := by
  induction bs with
  | nil => rfl
  | cons b rest ih => simp [parametersCode, ih]

section

variable (F : FunctionTable)

mutual

theorem mem_targetsOf_stmtCode : ∀ (st : Stmt) (n : Nat) (label : String),
    label ∈ targetsOf (stmtCode F st n) ↔ label ∈ labelsOf (stmtCode F st n)
  | .declare _ none, _, _ | .declare _ (some _), _, _ | .assign .., _, _ | .assignIndexed .., _, _
  | .increment _, _, _ | .decrement _, _, _ | .return_ none, _, _ | .return_ (some _), _, _
  | .expr _, _, _ => by simp [stmtCode]
  | .ifElse _ body otherwise, n, label => by
    simp only [stmtCode, List.mem_append, targetsOf_append, labelsOf_append,
      mem_targetsOf_blockCode body, mem_targetsOf_blockCode otherwise]
    simp
    tauto
  | .ifThen _ body, n, label | .while_ _ body, n, label | .doWhile body _, n, label
  | .loop body, n, label => by
    simp [stmtCode, mem_targetsOf_blockCode body, or_comm, or_left_comm]

/-- Jumps of statements lead to the labels of the statements, and to each of them. -/
theorem mem_targetsOf_blockCode : ∀ (body : List Stmt) (n : Nat) (label : String),
    label ∈ targetsOf (blockCode F body n) ↔ label ∈ labelsOf (blockCode F body n)
  | [], n, label => by simp [blockCode]
  | st :: rest, n, label => by
    simp [blockCode, mem_targetsOf_stmtCode st, mem_targetsOf_blockCode rest]

end

end

theorem labelsOf_functionCode (F : FunctionTable) (f : FunctionDef) (body : List Stmt) (n : Nat) :
    labelsOf (functionCode F f body n) = labelsOf (blockCode F body n) := by
  unfold functionCode
  split <;> simp

theorem targetsOf_functionCode (F : FunctionTable) (f : FunctionDef) (body : List Stmt) (n : Nat) :
    targetsOf (functionCode F f body n) = targetsOf (blockCode F body n) := by
  unfold functionCode
  split <;> simp

/-! ### Declarations of code -/

/-- The binding that a line declares. -/
def declared? : CodeLine → Option Binding
  | .instruction (.global b) | .instruction (.variable_ b) => some b
  | _ => none

/-- The bindings that code declares, in order. -/
def declaredOf (code : List CodeLine) : List Binding :=
  code.filterMap declared?

@[simp] theorem declaredOf_nil : declaredOf [] = [] := rfl

@[simp] theorem declaredOf_append (code more : List CodeLine) :
    declaredOf (code ++ more) = declaredOf code ++ declaredOf more :=
  List.filterMap_append

@[simp] theorem declaredOf_cons (line : CodeLine) (code : List CodeLine) :
    declaredOf (line :: code) = (declared? line).toList ++ declaredOf code := by
  cases h : declared? line <;> simp [declaredOf, h]

attribute [local simp] declared?

@[simp] theorem declaredOf_parametersCode (bs : List Binding) :
    declaredOf (parametersCode bs) = bs := by
  induction bs with
  | nil => rfl
  | cons b rest ih => simp [parametersCode, ih]

section

variable (F : FunctionTable)

@[simp] theorem declaredOf_exprCode (e : Expr) : declaredOf (exprCode F e) = [] := by
  refine List.filterMap_eq_nil_iff.2 fun line hline => ?_
  have hfalse := isStatementLine_of_mem_exprCode hline
  unfold declared?
  split
  · cases hfalse
  · cases hfalse
  · rfl

theorem mem_declaredOf_blockCode {b : Binding} {body : List Stmt} {n : Nat} :
    b ∈ declaredOf (blockCode F body n) ↔ b ∈ Stmt.bindingsOf body := by
  have hown : ∀ st, b ∈ declaredOf (stmtLines F st) ↔ st.binding? = some b := by
    intro st
    have hoperands : declaredOf (st.operands.flatMap (exprCode F)) = [] := by
      rw [declaredOf, List.filterMap_flatMap, List.flatMap_eq_nil_iff]
      exact fun e _ => declaredOf_exprCode F e
    cases hbinding : st.binding? <;> simp [stmtLines, hbinding, hoperands, eq_comm]
  rw [declaredOf, mem_filterMap_blockCode fun h => ?_, Stmt.bindingsOf, List.mem_filterMap]
  · simp only [← hown, declaredOf]
  · unfold declared? at h
    split at h <;> first | rfl | cases h

/-- The code of a function declares its parameters and its local variables. -/
theorem declaredOf_functionCode {body : List Stmt} (n : Nat) (h : f.body = .statements body) :
    ∀ b, b ∈ declaredOf (functionCode F f body n) ↔ b ∈ f.locals := by
  intro b
  unfold functionCode
  split <;> simp [mem_declaredOf_blockCode, FunctionDef.locals, Body.block, h]

end

/-! ### Locals before some code -/

namespace Naming

theorem isPrefix_through (k : Naming) (code : List CodeLine) :
    k.locals <+: (k.through code).locals := by
  induction code generalizing k with
  | nil => exact List.prefix_refl _
  | cons line code ih =>
    have hline : k.locals <+: (k.after line).locals := by
      unfold after
      split <;> first | exact isPrefix_insertName _ _ | exact List.prefix_refl _
    exact hline.trans (ih _)

theorem exists_of_mem_through {k : Naming} (h : name ∈ (k.through code).locals) :
    name ∈ k.locals ∨ ∃ b ∈ declaredOf code, b.name = name := by
  induction code generalizing k with
  | nil => exact .inl h
  | cons line code ih =>
    rw [declaredOf_cons]
    rcases ih h with hline | ⟨b, hb, hname⟩
    · unfold after at hline
      split at hline
      · exact .inl hline
      · next b =>
        rcases mem_insertName.1 hline with hlocal | rfl
        · exact .inl hlocal
        · exact .inr ⟨b, by simp, rfl⟩
      · exact .inl hline
    · exact .inr ⟨b, List.mem_append_right _ hb, hname⟩

end Naming

section

variable (F : FunctionTable) {value : Literal}

theorem literal_mem_exprCode (e : Expr) (h : .literal value ∈ e.parts) :
    literal value ∈ exprCode F e :=
  (mem_exprCode e).2 ⟨_, h, List.mem_singleton.2 rfl⟩

end

end Firestorm.Bytecode
