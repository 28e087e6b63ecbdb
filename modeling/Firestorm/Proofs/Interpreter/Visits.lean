import Firestorm.Proofs.Interpreter.Declarations

/-!
# What a run comes to

A run of the interpreter works on expressions, statements and calls, each of which leads to parts of
it and to the bodies of the functions that are called. This file follows a run from one of them to
the next, with the declarations that stand before them in the text of their function, and proves
that in a settled program every name that a run comes to is that of a local exactly if it is
declared before in the text.

## Main definitions

* `Interpreter.Task`, `Interpreter.Visit`, `Interpreter.Comes`, `Interpreter.Task.access?`,
  `Interpreter.Task.Ready`, `Interpreter.Pass`.

## Main results

* `Interpreter.Task.Ready.next`, `Interpreter.visited_ready`.
* `Interpreter.visited_passed`: a pass over the text comes wherever a run comes.
-/

namespace Firestorm.Interpreter

open Bytecode

variable {n' : Nat}

/-- What the interpreter works on. An expression or a statement stands in the text of its function
behind the declarations of the names of a scope. -/
inductive Task
  | eval (scope : List String) (F : Frame) (e : Expr)
  | arguments (scope : List String) (F : Frame) (es : List Expr)
  | call (f : FunctionDef) (arguments : List (Option Datatype × Word))
  | stmt (scope : List String) (F : Frame) (st : Stmt)
  | block (scope : List String) (F : Frame) (body : List Stmt)

/-- A task, the state in which it is taken up, and the bound on its depth. -/
structure Visit where
  fuel : Nat
  task : Task
  machine : Machine

/-- The variable that a task itself reads or assigns to, with the scope and the frame of the task.
The datatype of an argument is read apart from its value. -/
def Task.access? : Task → Option (List String × Frame × String)
  | eval scope F e | arguments scope F (e :: _) => e.read?.map fun name => (scope, F, name)
  | stmt scope F st => st.target?.map fun name => (scope, F, name)
  | _ => none

section

variable (functions : FunctionTable)

/-- The work on a task comes to another one. -/
inductive Comes : Visit → Visit → Prop
  | index {n scope F name i m v m'} (hv : lookup F name m = (.ok v, m')) :
    Comes ⟨n + 1, .eval scope F (.index name i), m⟩ ⟨n, .eval scope F i, m'⟩
  | callArguments {n scope F callee es m f} (hf : functions.resolve callee es.length = .ok f) :
    Comes ⟨n + 1, .eval scope F (.call callee es), m⟩ ⟨n, .arguments scope F es, m⟩
  | call {n scope F callee es m f values m'} (hf : functions.resolve callee es.length = .ok f)
    (hvalues : evalArguments functions n F es m = (.ok values, m')) :
    Comes ⟨n + 1, .eval scope F (.call callee es), m⟩ ⟨n, .call f values, m'⟩
  | binaryLeft {n scope F op left right m} :
    Comes ⟨n + 1, .eval scope F (.binary op left right), m⟩ ⟨n, .eval scope F left, m⟩
  | binaryRight {n scope F op left right m x m'}
    (hx : Interpreter.eval functions n F left m = (.ok x, m')) :
    Comes ⟨n + 1, .eval scope F (.binary op left right), m⟩ ⟨n, .eval scope F right, m'⟩
  | compareLeft {n scope F op left right m} :
    Comes ⟨n + 1, .eval scope F (.compare op left right), m⟩ ⟨n, .eval scope F left, m⟩
  | compareRight {n scope F op left right m x m'}
    (hx : Interpreter.eval functions n F left m = (.ok x, m')) :
    Comes ⟨n + 1, .eval scope F (.compare op left right), m⟩ ⟨n, .eval scope F right, m'⟩
  | unary {n scope F op operand m} :
    Comes ⟨n + 1, .eval scope F (.unary op operand), m⟩ ⟨n, .eval scope F operand, m⟩
  | not {n scope F operand m} :
    Comes ⟨n + 1, .eval scope F (.not operand), m⟩ ⟨n, .eval scope F operand, m⟩
  | argument {n scope F e es m d m'} (hd : staticDatatype functions F e m = (.ok d, m')) :
    Comes ⟨n + 1, .arguments scope F (e :: es), m⟩ ⟨n, .eval scope F e, m'⟩
  | furtherArguments {n scope F e es m d m₁ x m₂}
    (hd : staticDatatype functions F e m = (.ok d, m₁))
    (hx : Interpreter.eval functions n F e m₁ = (.ok x, m₂)) :
    Comes ⟨n + 1, .arguments scope F (e :: es), m⟩ ⟨n, .arguments scope F es, m₂⟩
  | body {n f arguments body m} (hlength : f.parameters.length = arguments.length)
    (hcheck : checkArguments f.name f.parameters arguments = .ok ())
    (hbody : f.body = .statements body) : Comes ⟨n + 1, .call f arguments, m⟩
      ⟨n, .block (bindingsScope [] f.parameters.reverse)
        (enter f.parameters (arguments.map Prod.snd)) body, m⟩
  | declare {n scope F b e m} (hd : ∀ v ∈ F.get? b.name, v.datatype = b.datatype) :
    Comes ⟨n + 1, .stmt scope F (.declare b (some e)), m⟩
      ⟨n, .eval (insertName scope b.name) F e, m⟩
  | assign {n scope F target e m} :
    Comes ⟨n + 1, .stmt scope F (.assign target e), m⟩ ⟨n, .eval scope F e, m⟩
  | assignIndex {n scope F target i e m v m'} (hv : lookup F target m = (.ok v, m'))
    (harray : v.datatype.array = true) :
    Comes ⟨n + 1, .stmt scope F (.assignIndexed target i e), m⟩ ⟨n, .eval scope F i, m'⟩
  | assignElement {n scope F target i e m v m₁ x m₂} (hv : lookup F target m = (.ok v, m₁))
    (harray : v.datatype.array = true) (hx : Interpreter.eval functions n F i m₁ = (.ok x, m₂)) :
    Comes ⟨n + 1, .stmt scope F (.assignIndexed target i e), m⟩ ⟨n, .eval scope F e, m₂⟩
  | return_ {n scope F e m} :
    Comes ⟨n + 1, .stmt scope F (.return_ (some e)), m⟩ ⟨n, .eval scope F e, m⟩
  | ifThen {n scope F condition body m} :
    Comes ⟨n + 1, .stmt scope F (.ifThen condition body), m⟩ ⟨n, .eval scope F condition, m⟩
  | ifThenBody {n scope F condition body m x m'}
    (hx : Interpreter.eval functions n F condition m = (.ok x, m')) (htrue : x ≠ 0) :
    Comes ⟨n + 1, .stmt scope F (.ifThen condition body), m⟩ ⟨n, .block scope F body, m'⟩
  | ifElse {n scope F condition body otherwise m} :
    Comes ⟨n + 1, .stmt scope F (.ifElse condition body otherwise), m⟩
      ⟨n, .eval scope F condition, m⟩
  | ifElseBody {n scope F condition body otherwise m x m'}
    (hx : Interpreter.eval functions n F condition m = (.ok x, m')) (htrue : x ≠ 0) :
    Comes ⟨n + 1, .stmt scope F (.ifElse condition body otherwise), m⟩ ⟨n, .block scope F body, m'⟩
  | otherwise {n scope F condition body otherwise m x m'}
    (hx : Interpreter.eval functions n F condition m = (.ok x, m')) (hfalse : x = 0) :
    Comes ⟨n + 1, .stmt scope F (.ifElse condition body otherwise), m⟩
      ⟨n, .block (blockScope scope body) F otherwise, m'⟩
  | while_ {n scope F condition body m} :
    Comes ⟨n + 1, .stmt scope F (.while_ condition body), m⟩ ⟨n, .eval scope F condition, m⟩
  | whileBody {n scope F condition body m x m'}
    (hx : Interpreter.eval functions n F condition m = (.ok x, m')) (htrue : x ≠ 0) :
    Comes ⟨n + 1, .stmt scope F (.while_ condition body), m⟩ ⟨n, .block scope F body, m'⟩
  | whileAgain {n scope F condition body m x m₁ F' m₂}
    (hx : Interpreter.eval functions n F condition m = (.ok x, m₁)) (htrue : x ≠ 0)
    (hbody : execBlock functions n F body m₁ = (.ok (F', none), m₂)) :
    Comes ⟨n + 1, .stmt scope F (.while_ condition body), m⟩
      ⟨n, .stmt scope F' (.while_ condition body), m₂⟩
  | doWhileBody {n scope F body condition m} :
    Comes ⟨n + 1, .stmt scope F (.doWhile body condition), m⟩ ⟨n, .block scope F body, m⟩
  | doWhile {n scope F body condition m F' m'}
    (hbody : execBlock functions n F body m = (.ok (F', none), m')) :
    Comes ⟨n + 1, .stmt scope F (.doWhile body condition), m⟩
      ⟨n, .eval (blockScope scope body) F' condition, m'⟩
  | doWhileAgain {n scope F body condition m F' m₁ x m₂}
    (hbody : execBlock functions n F body m = (.ok (F', none), m₁))
    (hx : Interpreter.eval functions n F' condition m₁ = (.ok x, m₂)) (htrue : x ≠ 0) :
    Comes ⟨n + 1, .stmt scope F (.doWhile body condition), m⟩
      ⟨n, .stmt scope F' (.doWhile body condition), m₂⟩
  | loopBody {n scope F body m} :
    Comes ⟨n + 1, .stmt scope F (.loop body), m⟩ ⟨n, .block scope F body, m⟩
  | loopAgain {n scope F body m F' m'}
    (hbody : execBlock functions n F body m = (.ok (F', none), m')) :
    Comes ⟨n + 1, .stmt scope F (.loop body), m⟩ ⟨n, .stmt scope F' (.loop body), m'⟩
  | expr {n scope F e m} :
    Comes ⟨n + 1, .stmt scope F (.expr e), m⟩ ⟨n, .eval scope F e, m⟩
  | first {n scope F st rest m} :
    Comes ⟨n + 1, .block scope F (st :: rest), m⟩ ⟨n, .stmt scope F st, m⟩
  | rest {n scope F st rest m F' m'} (hst : execStmt functions n F st m = (.ok (F', none), m')) :
    Comes ⟨n + 1, .block scope F (st :: rest), m⟩ ⟨n, .block (stmtScope scope st) F' rest, m'⟩

end

/-! ### Names in order -/

/-- The name that a part of an expression reads means the same in the text and in the frame, and the
function that it calls can be reached. -/
structure PartReady (p : Program) (N : Names) (scope : List String) (F : Frame) (part : Expr) :
    Prop where
  agrees : ∀ name ∈ part.read?, Agrees scope F name
  resolves : Resolves N scope part
  reachable : ∀ callee ∈ part.callee?, p.Reachable callee

/-- Statements stand in a function that can be reached. -/
def StandsIn (p : Program) (parts : List Stmt) : Prop :=
  ∃ f ∈ p.functions, p.Reachable f.name ∧ parts ⊆ f.statements

/-- The names of a task mean the same in the text and in the frame, as long as the work on it
lasts. -/
def Task.Ready (p : Program) (N : Names) : Task → Prop
  | eval scope F e => ∀ part ∈ e.parts, PartReady p N scope F part
  | arguments scope F es => ∀ part ∈ Expr.partsOf es, PartReady p N scope F part
  | call f _ => f ∈ p.functions ∧ p.Reachable f.name
  | stmt scope F st =>
    (∃ a : Declared, a.Covers F ∧ StmtSettled a scope st) ∧ StmtScoped N scope st ∧
      StandsIn p st.parts
  | block scope F body => (∃ a : Declared, a.Covers F ∧ BlockSettled a scope body) ∧
      BlockScoped N scope body ∧ StandsIn p (Stmt.partsOf body)

section

variable {p : Program} {N : Names} {scope : List String} {F : Frame}

theorem StandsIn.subset {parts more : List Stmt} (h : StandsIn p more) (hparts : parts ⊆ more) :
    StandsIn p parts := by
  obtain ⟨f, hf, hreachable, hmore⟩ := h
  exact ⟨f, hf, hreachable, fun _ hst => hmore (hparts hst)⟩

/-- An operand of a statement has its names in order. -/
theorem ready_operand {a : Declared} {st : Stmt} {e : Expr} (hF : a.Covers F)
    (hsettled : ExprSettled a scope e) (hscoped : ExprScoped N scope e) (hst : StandsIn p st.parts)
    (he : e ∈ st.operands) : (Task.eval scope F e).Ready p N := by
  obtain ⟨f, hf, hreachable, hparts⟩ := hst
  intro part hpart
  refine ⟨fun name hname => ?_, hscoped part hpart, fun callee hcallee => .call hf hreachable ?_⟩
  · exact (hsettled name (List.mem_filterMap.2 ⟨part, hpart, hname⟩)).agrees hF
  · have hexpressions := FunctionDef.parts_subset_expressions (hparts st.self_mem_parts) he hpart
    cases part with
    | call callee' arguments =>
      obtain rfl : callee' = callee := Option.some_inj.1 hcallee
      exact FunctionDef.mem_callees_of_call hexpressions
    | _ => cases hcallee

end

variable {t t' : Task}

section

variable {p : Program} {N : Names}

/-- The work on a statement with its names in order comes to parts of it with their names in
order. -/
theorem ready_of_stmt {scope : List String} {F : Frame} {st : Stmt} {a : Declared} {n : Nat}
    {m m' : Machine} (hF : a.Covers F) (hsettled : StmtSettled a scope st)
    (hscoped : StmtScoped N scope st) (hst : StandsIn p st.parts)
    (h : Comes N.functions ⟨n, .stmt scope F st, m⟩ ⟨n', t', m'⟩) : t'.Ready p N := by
  -- no round of a loop has been run, or one round more
  have hfirst : ∀ body, (a ++ .rounds (Stmt.declaresAll body)).Covers F :=
    fun body => hF.append (.rounds_refl F _)
  have hbehind : ∀ {n F' body m₁ m₂}, execBlock N.functions n F body m₁ = (.ok (F', none), m₂) →
      ∃ b ∈ Stmt.declaresAll body,
      (a ++ b).Covers F' ∧ (a ++ .rounds (Stmt.declaresAll body)).Covers F' := by
    intro n F' body m₁ m₂ hbody
    obtain ⟨b, hb, hF'⟩ := (extending N.functions n).block hbody
    exact ⟨b, hb, hF.append hF', hF.append (hb ▸ hF'.rounds)⟩
  cases h with
  | declare | return_ =>
    exact ready_operand hF (hsettled _ rfl) (hscoped _ rfl) hst (List.mem_singleton_self _)
  | assign => exact ready_operand hF hsettled.2 hscoped.2 hst (List.mem_singleton_self _)
  | assignIndex => exact ready_operand hF hsettled.2.1 hscoped.2.1 hst (List.mem_cons_self ..)
  | assignElement =>
    exact ready_operand hF hsettled.2.2 hscoped.2.2 hst
      (List.mem_cons_of_mem _ (List.mem_cons_self ..))
  | ifThen | ifElse => exact ready_operand hF hsettled.1 hscoped.1 hst (List.mem_singleton_self _)
  | ifThenBody => exact ⟨⟨a, hF, hsettled.2⟩, hscoped.2, hst.subset (List.subset_cons_self _ _)⟩
  | ifElseBody =>
    exact ⟨⟨a, hF, hsettled.2.1⟩, hscoped.2.1,
      hst.subset fun _ hpart => List.mem_cons_of_mem _ (List.mem_append_left _ hpart)⟩
  | otherwise =>
    exact ⟨⟨a, hF, hsettled.2.2⟩, hscoped.2.2,
      hst.subset fun _ hpart => List.mem_cons_of_mem _ (List.mem_append_right _ hpart)⟩
  | while_ => exact ready_operand (hfirst _) hsettled.1 hscoped.1 hst (List.mem_singleton_self _)
  | whileBody =>
    exact ⟨⟨_, hfirst _, hsettled.2⟩, hscoped.2, hst.subset (List.subset_cons_self _ _)⟩
  | doWhileBody =>
    exact ⟨⟨_, hfirst _, hsettled.1⟩, hscoped.1, hst.subset (List.subset_cons_self _ _)⟩
  | loopBody => exact ⟨⟨_, hfirst _, hsettled⟩, hscoped, hst.subset (List.subset_cons_self _ _)⟩
  | doWhile hbody =>
    obtain ⟨b, hb, hF', -⟩ := hbehind hbody
    exact ready_operand hF' (hsettled.2 b hb) hscoped.2 hst (List.mem_singleton_self _)
  | whileAgain _ _ hbody | loopAgain hbody =>
    obtain ⟨-, -, -, hF'⟩ := hbehind hbody
    refine ⟨⟨_, hF', ?_⟩, hscoped, hst⟩
    rw [StmtSettled] at hsettled ⊢
    rwa [Declared.append_rounds_rounds]
  | doWhileAgain hbody =>
    obtain ⟨-, -, -, hF'⟩ := hbehind hbody
    refine ⟨⟨_, hF', ?_⟩, hscoped, hst⟩
    rw [StmtSettled] at hsettled ⊢
    rw [Declared.append_rounds_rounds]
    refine ⟨hsettled.1, fun c hc => ?_⟩
    rw [hc, Declared.append_rounds_some]
    exact hsettled.2 c hc
  | expr => exact ready_operand hF hsettled hscoped hst (List.mem_singleton_self _)

variable (hfunctions : FunctionTable.ofProgram p = .ok N.functions)
  (hinScope : ∀ f ∈ p.functions, ∀ body, f.body = .statements body →
    BlockScoped N (bindingsScope [] f.parameters.reverse) body)
  (hp : p.Settled)
include hfunctions hinScope hp

/-- A run that comes from a task with its names in order comes to a task with its names in order. -/
theorem Task.Ready.next {n : Nat} {m m' : Machine} (hv : t.Ready p N)
    (h : Comes N.functions ⟨n, t, m⟩ ⟨n', t', m'⟩) : t'.Ready p N := by
  cases t with
  | eval scope F e =>
    cases h with
    | index | callArguments | unary | not =>
      exact fun part hpart => hv part (List.mem_cons_of_mem _ hpart)
    | call hf =>
      obtain ⟨hget, -⟩ := FunctionTable.resolve_eq_ok.1 hf
      obtain ⟨hmem, hname⟩ := FunctionTable.mem_of_get? hfunctions hget
      exact ⟨hmem, hname ▸ (hv _ (List.mem_cons_self ..)).reachable _ rfl⟩
    | binaryLeft | compareLeft =>
      exact fun part hpart => hv part (List.mem_cons_of_mem _ (List.mem_append_left _ hpart))
    | binaryRight | compareRight =>
      exact fun part hpart => hv part (List.mem_cons_of_mem _ (List.mem_append_right _ hpart))
  | arguments scope F es =>
    cases h with
    | argument => exact fun part hpart => hv part (List.mem_append_left _ hpart)
    | furtherArguments => exact fun part hpart => hv part (List.mem_append_right _ hpart)
  | call f arguments =>
    obtain ⟨hf, hreachable⟩ := hv
    cases h with
    | body hlength hcheck hbody =>
      refine ⟨⟨_, covers_enter (by rw [hlength, List.length_map]), hp f hf hreachable _ hbody⟩,
        hinScope f hf _ hbody, f, hf, hreachable, ?_⟩
      rw [FunctionDef.statements, hbody]
      exact List.Subset.refl _
  | stmt scope F st =>
    obtain ⟨⟨a, hF, hsettled⟩, hscoped, hst⟩ := hv
    exact ready_of_stmt hF hsettled hscoped hst h
  | block scope F body =>
    obtain ⟨⟨a, hF, hsettled⟩, hscoped, hst⟩ := hv
    cases h with
    | first =>
      exact ⟨⟨a, hF, hsettled.1⟩, hscoped.1, hst.subset fun _ hpart => List.mem_append_left _ hpart⟩
    | rest hexec =>
      obtain ⟨b, hb, hF'⟩ := (extending N.functions _).stmt hexec
      exact ⟨⟨_, hF.append hF', hsettled.2 b hb⟩, hscoped.2,
        hst.subset fun _ hpart => List.mem_append_right _ hpart⟩

/-- All that a run of a settled program comes to has its names in order. -/
theorem visited_ready {v v' : Visit} (h : Relation.ReflTransGen (Comes N.functions) v v')
    (hv : v.task.Ready p N) : v'.task.Ready p N := by
  induction h with
  | refl => exact hv
  | tail _ hcomes ih => exact ih.next hfunctions hinScope hp hcomes

end

/-! ### Variables that are found -/

/-- A state has the globals of a program. -/
def HasGlobals (N : Names) (m : Machine) : Prop :=
  ∀ name d, N.globals.get? name = some d → (m.globals.get? name).isSome

/-- A name that means the same in the text and in the frame is found. -/
theorem exists_variableOf {N : Names} {scope : List String} {F : Frame} {m : Machine}
    {name : String} (hagrees : Agrees scope F name) (hnamed : Named N scope name)
    (hm : HasGlobals N m) : ∃ v, variableOf F m name = some v := by
  unfold variableOf
  cases hframe : F.get? name with
  | some v => exact ⟨v, rfl⟩
  | none =>
    have hscope : name ∉ scope := fun h => by simpa [hframe] using hagrees.2 h
    obtain ⟨d, hd⟩ := hnamed.resolve_left hscope
    exact Option.isSome_iff_exists.1 (hm name d hd)

/-- A task accesses a variable if it evaluates or passes on an expression that reads it, or is a
statement that assigns to it. -/
theorem Task.access?_eq_some {scope : List String} {F : Frame} {name : String} :
    t.access? = some (scope, F, name) ↔
      (∃ e, t = .eval scope F e ∧ e.read? = some name) ∨
      (∃ e es, t = .arguments scope F (e :: es) ∧ e.read? = some name) ∨
      ∃ st, t = .stmt scope F st ∧ st.target? = some name := by
  rcases t with ⟨_, _, e⟩ | ⟨_, _, _ | ⟨e, es⟩⟩ | _ | ⟨_, _, st⟩ | _ <;>
    simp [access?, and_assoc, and_comm, and_left_comm]

section

variable {p : Program} {N : Names} {scope : List String} {F : Frame} {name : String}

theorem PartReady.named {part : Expr} (h : PartReady p N scope F part)
    (hname : part.read? = some name) : Named N scope name := by
  have hresolves := h.resolves
  cases part with
  | lookup name' | index name' i =>
    obtain rfl : name' = name := Option.some_inj.1 hname
    exact hresolves
  | _ => cases hname

/-- A variable that a task with its names in order reads or assigns to means the same in the text
and in the frame. -/
theorem Task.Ready.access (ht : t.Ready p N) (haccess : t.access? = some (scope, F, name)) :
    Agrees scope F name ∧ Named N scope name := by
  rcases access?_eq_some.1 haccess with ⟨e, rfl, hread⟩ | ⟨e, es, rfl, hread⟩ | ⟨st, rfl, htarget⟩
  · have hpart := ht e e.self_mem_parts
    exact ⟨hpart.agrees name hread, hpart.named hread⟩
  · have hpart := ht e (List.mem_append_left _ e.self_mem_parts)
    exact ⟨hpart.agrees name hread, hpart.named hread⟩
  · obtain ⟨⟨a, hF, hsettled⟩, hscoped, -⟩ := ht
    cases st with
    | assign target e | assignIndexed target i e =>
      obtain rfl : target = name := Option.some_inj.1 htarget
      exact ⟨hsettled.1.agrees hF, hscoped.1⟩
    | increment target | decrement target =>
      obtain rfl : target = name := Option.some_inj.1 htarget
      exact ⟨NameSettled.agrees hsettled hF, hscoped⟩
    | _ => cases htarget

end

/-! ### Passes over the text -/

/-- What a pass over the text of a program says of its parts, each with the names that are declared
before it. -/
structure Pass where
  expr : List String → Expr → Prop
  arguments : List String → List Expr → Prop
  stmt : List String → Stmt → Prop
  block : List String → List Stmt → Prop

/-- A pass goes on to all parts, with the names that are declared before them. -/
structure Pass.Descends (T : Pass) : Prop where
  index {scope name i} : T.expr scope (.index name i) → T.expr scope i
  call {scope callee es} : T.expr scope (.call callee es) → T.arguments scope es
  binary {scope op left right} : T.expr scope (.binary op left right) →
    T.expr scope left ∧ T.expr scope right
  compare {scope op left right} : T.expr scope (.compare op left right) →
    T.expr scope left ∧ T.expr scope right
  unary {scope op operand} : T.expr scope (.unary op operand) → T.expr scope operand
  not {scope operand} : T.expr scope (.not operand) → T.expr scope operand
  arguments {scope e es} : T.arguments scope (e :: es) → T.expr scope e ∧ T.arguments scope es
  declare {scope b e} : T.stmt scope (.declare b (some e)) → T.expr (insertName scope b.name) e
  assign {scope target e} : T.stmt scope (.assign target e) → T.expr scope e
  assignIndexed {scope target i e} : T.stmt scope (.assignIndexed target i e) →
    T.expr scope i ∧ T.expr scope e
  return_ {scope e} : T.stmt scope (.return_ (some e)) → T.expr scope e
  ifThen {scope condition body} : T.stmt scope (.ifThen condition body) →
    T.expr scope condition ∧ T.block scope body
  ifElse {scope condition body otherwise} : T.stmt scope (.ifElse condition body otherwise) →
    T.expr scope condition ∧ T.block scope body ∧ T.block (blockScope scope body) otherwise
  while_ {scope condition body} : T.stmt scope (.while_ condition body) →
    T.expr scope condition ∧ T.block scope body
  doWhile {scope body condition} : T.stmt scope (.doWhile body condition) →
    T.block scope body ∧ T.expr (blockScope scope body) condition
  loop {scope body} : T.stmt scope (.loop body) → T.block scope body
  discarded {scope e} : T.stmt scope (.expr e) → T.expr scope e
  block {scope st rest} : T.block scope (st :: rest) →
    T.stmt scope st ∧ T.block (stmtScope scope st) rest

/-- A pass has come to a task, or to the body of the function that it calls. -/
def Task.Passed (T : Pass) : Task → Prop
  | eval scope _ e => T.expr scope e
  | arguments scope _ es => T.arguments scope es
  | call f _ =>
    ∀ body, f.body = .statements body → T.block (bindingsScope [] f.parameters.reverse) body
  | stmt scope _ st => T.stmt scope st
  | block scope _ body => T.block scope body

section

variable {functions : FunctionTable} {T : Pass} (hT : T.Descends)
  (hcall : ∀ callee f, functions.get? callee = some f → (Task.call f []).Passed T)
include hT hcall

/-- A pass comes wherever a run comes. -/
theorem Task.Passed.next {n : Nat} {m m' : Machine} (ht : t.Passed T)
    (h : Comes functions ⟨n, t, m⟩ ⟨n', t', m'⟩) : t'.Passed T := by
  cases h with
  | index => exact hT.index ht
  | callArguments => exact hT.call ht
  | call hf => exact hcall _ _ (FunctionTable.resolve_eq_ok.1 hf).1
  | binaryLeft => exact (hT.binary ht).1
  | binaryRight => exact (hT.binary ht).2
  | compareLeft => exact (hT.compare ht).1
  | compareRight => exact (hT.compare ht).2
  | unary => exact hT.unary ht
  | not => exact hT.not ht
  | argument => exact (hT.arguments ht).1
  | furtherArguments => exact (hT.arguments ht).2
  | body _ _ hbody => exact ht _ hbody
  | declare => exact hT.declare ht
  | assign => exact hT.assign ht
  | assignIndex => exact (hT.assignIndexed ht).1
  | assignElement => exact (hT.assignIndexed ht).2
  | return_ => exact hT.return_ ht
  | ifThen => exact (hT.ifThen ht).1
  | ifThenBody => exact (hT.ifThen ht).2
  | ifElse => exact (hT.ifElse ht).1
  | ifElseBody => exact (hT.ifElse ht).2.1
  | otherwise => exact (hT.ifElse ht).2.2
  | while_ => exact (hT.while_ ht).1
  | whileBody => exact (hT.while_ ht).2
  | doWhileBody => exact (hT.doWhile ht).1
  | doWhile => exact (hT.doWhile ht).2
  | whileAgain | doWhileAgain | loopAgain => exact ht
  | loopBody => exact hT.loop ht
  | expr => exact hT.discarded ht
  | first => exact (hT.block ht).1
  | rest => exact (hT.block ht).2

theorem visited_passed {v v' : Visit} (h : Relation.ReflTransGen (Comes functions) v v')
    (hv : v.task.Passed T) : v'.task.Passed T := by
  induction h with
  | refl => exact hv
  | tail _ hcomes ih => exact ih.next hT hcall hcomes

end

/-- A pass that comes to a task comes to the variable that the task reads or assigns to. -/
theorem Task.Passed.access {T : Pass} (hT : T.Descends) {R : List String → String → Prop}
    (hexpr : ∀ {scope e name}, T.expr scope e → e.read? = some name → R scope name)
    (hstmt : ∀ {scope st name}, T.stmt scope st → st.target? = some name → R scope name)
    {scope : List String} {F : Frame} {name : String} (ht : t.Passed T)
    (haccess : t.access? = some (scope, F, name)) : R scope name := by
  rcases access?_eq_some.1 haccess with ⟨e, rfl, hread⟩ | ⟨e, es, rfl, hread⟩ | ⟨st, rfl, htarget⟩
  · exact hexpr ht hread
  · exact hexpr (hT.arguments ht).1 hread
  · exact hstmt ht htarget

end Firestorm.Interpreter