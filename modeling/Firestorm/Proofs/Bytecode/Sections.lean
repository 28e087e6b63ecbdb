import Firestorm.Proofs.Bytecode.Emission
import Firestorm.Proofs.Bytecode.Scoping
import Firestorm.Proofs.Program.Words
import Firestorm.Proofs.Symbols.Reachability

/-!
# The sections of a program

A program that is compiled keeps the sections of the functions that can be reached. This file says
what can be reached without a graph, as a relation on the program, and proves that the sections of
exactly these functions are kept.

## Main definitions

* `Program.Reachable`, `Bytecode.callsOf`.

## Main results

* `Bytecode.mem_callsOf_functionCode`, `Program.Compiled`, `Program.compiled_of_toBytecode`.
-/

namespace Firestorm

variable {sections : List Section}

/-- The names that a run or an outside caller can reach. -/
inductive Program.Reachable (p : Program) : String → Prop
  | entryPoint : Reachable p Program.entryPoint
  | unreachable : Reachable p Program.unreachable
  | kept {f : FunctionDef} (hf : f ∈ p.functions) (hkeep : f.attributes.keep = true) :
    Reachable p f.name
  | call {f : FunctionDef} (hf : f ∈ p.functions) (h : Reachable p f.name) {callee : String}
    (hcallee : callee ∈ f.callees) : Reachable p callee

namespace Bytecode

open Fallible

variable {f : FunctionDef} {body : List Stmt} {N : Names} {code : List CodeLine} {name : String}
  {g : CallGraph} {fs : List FunctionDef}

/-! ### Calls in code -/

/-- The function that a line calls, be it native or not. -/
def call? : CodeLine → Option String
  | .instruction (.invoke callee) | .instruction (.invokeNative callee) => some callee
  | _ => none

/-- The functions that code calls, in order. -/
def callsOf (code : List CodeLine) : List String :=
  code.filterMap call?

@[simp] theorem callsOf_nil : callsOf [] = [] := rfl

@[simp] theorem callsOf_append (code more : List CodeLine) :
    callsOf (code ++ more) = callsOf code ++ callsOf more :=
  List.filterMap_append

@[simp] theorem callsOf_cons (line : CodeLine) (code : List CodeLine) :
    callsOf (line :: code) = (call? line).toList ++ callsOf code := by
  cases h : call? line <;> simp [callsOf, h]

@[simp] theorem call?_callLine (F : FunctionTable) (callee : String) :
    call? (callLine F callee) = some callee := by
  unfold callLine
  split <;> rfl

attribute [local simp] access plain number call?

section

variable (F : FunctionTable) (name : String)

theorem mem_callsOf_exprCode (e : Expr) : name ∈ callsOf (exprCode F e) ↔ name ∈ e.callees := by
  have hown : ∀ part : Expr, name ∈ callsOf (ownLines F part) ↔ part.callee? = some name := by
    intro part
    cases part with
    | literal value => cases value <;> simp [ownLines, literal, Expr.callee?]
    | unary op operand => cases op <;> simp [ownLines, Expr.callee?]
    | call callee arguments => simp [ownLines, Expr.callee?, eq_comm, -call?]
    | _ => simp [ownLines, Expr.callee?]
  rw [callsOf, mem_filterMap_exprCode, Expr.callees, List.mem_filterMap]
  simp only [← hown, callsOf]

theorem mem_callsOf_blockCode (body : List Stmt) (n : Nat) :
    name ∈ callsOf (blockCode F body n) ↔ name ∈ Stmt.calleesOf body := by
  have hown : ∀ st : Stmt, name ∈ callsOf (stmtLines F st) ↔
      name ∈ st.operands.flatMap Expr.callees := by
    intro st
    have hoperands : name ∈ callsOf (st.operands.flatMap (exprCode F)) ↔
        name ∈ st.operands.flatMap Expr.callees := by
      simp only [callsOf, List.filterMap_flatMap, List.mem_flatMap, ← mem_callsOf_exprCode F]
    cases hbinding : st.binding? <;> simpa [stmtLines, hbinding] using hoperands
  rw [callsOf, mem_filterMap_blockCode fun h => ?_, Stmt.calleesOf, List.mem_flatMap]
  · simp only [← hown, callsOf]
  · unfold call? at h
    split at h <;> first | rfl | cases h

end

@[simp] theorem callsOf_parametersCode (bs : List Binding) : callsOf (parametersCode bs) = [] := by
  induction bs with
  | nil => rfl
  | cons b rest ih => simp [parametersCode, ih]

/-- The code of a function calls what the function calls. -/
theorem mem_callsOf_functionCode (F : FunctionTable) (hbody : f.body = .statements body) (n : Nat)
    (name : String) : name ∈ callsOf (functionCode F f body n) ↔ name ∈ f.callees := by
  rw [FunctionDef.callees, hbody, Body.block, ← mem_callsOf_blockCode F name body n]
  unfold functionCode
  split <;> simp

/-- A call in code whose names are in scope is native exactly if its function says so. -/
theorem mem_of_mem_callsOf {k : Naming} (hfits : k.CodeFits N code) (h : name ∈ callsOf code) :
    callLine N.functions name ∈ code := by
  obtain ⟨line, hmem, hcall⟩ := List.mem_filterMap.1 h
  obtain ⟨k', hline⟩ := Naming.exists_fits_of_mem hfits hmem
  unfold call? at hcall
  split at hcall
  · cases hcall
    rwa [callLine, hline.1]
  · cases hcall
    rwa [callLine, show isNative N.functions name = true from hline]
  · cases hcall

theorem mem_invokes : name ∈ invokes code ↔ .instruction (.invoke name) ∈ code := by
  rw [invokes, List.mem_filterMap]
  constructor
  · rintro ⟨line, hmem, hline⟩
    unfold invoked? at hline
    split at hline
    · cases hline
      exact hmem
    · cases hline
  · exact fun hmem => ⟨_, hmem, rfl⟩

theorem mem_callsOf_of_invokes (h : name ∈ invokes code) : name ∈ callsOf code :=
  List.mem_filterMap.2 ⟨_, mem_invokes.1 h, rfl⟩

/-! ### The graph of calls -/

/-- The callees of a function in the graph: what it calls unless that is native, and possibly the
name for control that must not come there. -/
def Notes (F : FunctionTable) (f : FunctionDef) (callees : List String) : Prop :=
  (∀ name ∈ callees, name ∈ f.callees ∨ name = Program.unreachable) ∧
    ∀ name ∈ f.callees, isNative F name = false → name ∈ callees

theorem notes_functionCallees (hbody : f.body = .statements body)
    (hscoped : BlockScoped N (bindingsScope [] f.parameters.reverse) body) (n : Nat) :
    Notes N.functions f (functionCallees N.functions f body n) := by
  refine ⟨fun name hname => ?_, fun name hname hnative => ?_⟩
  · rcases List.mem_append.1 hname with hname | hname
    · have hcall := mem_callsOf_of_invokes (List.mem_reverse.1 hname)
      exact .inl ((mem_callsOf_functionCode N.functions hbody n name).1 hcall)
    · split at hname
      · exact .inr (List.mem_singleton.1 hname)
      · cases hname
  · have hcall := (mem_callsOf_functionCode N.functions hbody n name).2 hname
    have hline := mem_of_mem_callsOf (codeFits_functionCode [] n hscoped) hcall
    rw [callLine, hnative] at hline
    exact List.mem_append_left _ (List.mem_reverse.2 (mem_invokes.2 hline))

/-- The graph behind functions: their callees are noted in it, and those that are kept or are the
entry point are roots. -/
structure GraphOf (F : FunctionTable) (fs : List FunctionDef) (g g' : CallGraph) : Prop where
  mem_roots_iff : ∀ name, name ∈ g'.roots ↔ name ∈ g.roots ∨ ∃ f ∈ fs, f.name = name ∧
    (f.attributes.keep = true ∨ name = Program.entryPoint)
  notes : ∀ f ∈ fs, ∃ callees, g'.callees.get? f.name = some callees ∧ Notes F f callees
  get?_eq : ∀ name, name ∉ fs.map (·.name) → g'.callees.get? name = g.callees.get? name

theorem GraphOf.cons {F : FunctionTable} {g' : CallGraph} {callees : List String}
    (hnodup : ((f :: fs).map (·.name)).Nodup) (hnotes : Notes F f callees)
    (h : GraphOf F fs (g.define f.name f.attributes callees) g') : GraphOf F (f :: fs) g g' := by
  obtain ⟨hnew, hnodup⟩ := List.nodup_cons.1 hnodup
  refine ⟨fun name => ?_, List.forall_mem_cons.2 ⟨⟨callees, ?_, hnotes⟩, h.notes⟩,
    fun name hname => ?_⟩
  · rw [h.mem_roots_iff, CallGraph.mem_roots_define, or_assoc]
    refine or_congr_right ?_
    simp only [List.mem_cons, exists_eq_or_imp]
    refine or_congr_left ?_
    constructor
    · rintro ⟨rfl, hroot⟩
      exact ⟨rfl, hroot⟩
    · rintro ⟨rfl, hroot⟩
      exact ⟨rfl, hroot⟩
  · rw [h.get?_eq f.name hnew, CallGraph.callees_define, if_pos rfl]
  · obtain ⟨hne, hname⟩ := not_or.1 (List.mem_cons.not.1 hname)
    rw [h.get?_eq name hname, CallGraph.callees_define, if_neg hne]

theorem graphOf_emitFunctions (hN : N.Keyed) {n : Nat} {g' : CallGraph}
    (hnodup : (fs.map (·.name)).Nodup) (h : emitFunctions N n g fs = .ok (sections, g')) :
    GraphOf N.functions fs g g' := by
  induction fs generalizing n g sections with
  | nil =>
    cases h
    exact ⟨by simp, by simp, fun _ _ => rfl⟩
  | cons f rest ih =>
    have hrest := (List.nodup_cons.1 hnodup).2
    unfold emitFunctions at h
    cases hbody : f.body with
    | assembly text =>
      simp only [hbody] at h
      refine .cons hnodup ⟨by simp, ?_⟩ (ih hrest h)
      simp [FunctionDef.callees, hbody, Body.block]
    | statements body =>
      simp only [hbody, except_bind_eq_ok] at h
      obtain ⟨⟨code, callees, n'⟩, hf, ⟨sections', g''⟩, hfs, h⟩ := h
      cases h
      obtain ⟨rfl, rfl, rfl, hscoped⟩ := emitFunction_eq_ok hN hf
      exact .cons hnodup (notes_functionCallees hbody hscoped n) (ih hrest hfs)

section

variable {p : Program} {N : Names} {g : CallGraph}
  (hg : GraphOf N.functions p.functions {} g)

include hg

/-- What the graph leads to can be reached. -/
theorem reachable_of_leads (h : (g.root Program.unreachable).Leads name) : p.Reachable name := by
  induction h with
  | @root name h =>
    rcases List.mem_append.1 h with h | h
    · rcases (hg.mem_roots_iff name).1 h with h | ⟨f, hf, rfl, hkeep | hentry⟩
      · cases h
      · exact .kept hf hkeep
      · rw [hentry]
        exact .entryPoint
    · rw [List.mem_singleton.1 h]
      exact .unreachable
  | @call caller name callees _ hcallees h ih =>
    by_cases hcaller : caller ∈ p.functions.map (·.name)
    · obtain ⟨f, hf, rfl⟩ := List.mem_map.1 hcaller
      obtain ⟨callees', hcallees', hnotes, -⟩ := hg.notes f hf
      obtain rfl : callees' = callees := Option.some.inj (hcallees'.symm.trans hcallees)
      rcases hnotes name h with hname | rfl
      · exact .call hf ih hname
      · exact .unreachable
    · have hnone := hg.get?_eq caller hcaller
      rw [show g.callees.get? caller = some callees from hcallees] at hnone
      cases hnone

/-- A function with a section that can be reached is one the graph leads to. -/
theorem leads_of_reachable (hp : p.Worded)
    (hfunctions : FunctionTable.ofProgram p = .ok N.functions) (h : p.Reachable name)
    (hf : f ∈ p.functions) (hname : f.name = name) (hbody : ¬ f.IsAssembly) :
    (g.root Program.unreachable).Leads name := by
  induction h generalizing f with
  | entryPoint =>
    refine .root (List.mem_append_left _ ((hg.mem_roots_iff _).2 (.inr ⟨f, hf, hname, .inr rfl⟩)))
  | unreachable => exact .root (List.mem_append_right _ (List.mem_singleton.2 rfl))
  | @kept f' hf' hkeep =>
    exact .root (List.mem_append_left _ ((hg.mem_roots_iff _).2 (.inr ⟨f', hf', rfl, .inl hkeep⟩)))
  | @call f' hf' h callee hcallee ih =>
    have hcaller : ¬ f'.IsAssembly := by
      rintro ⟨text, htext⟩
      simp [FunctionDef.callees, htext, Body.block] at hcallee
    obtain ⟨callees, hcallees, -, hnotes⟩ := hg.notes f' hf'
    refine .call (ih hf' rfl hcaller) hcallees (hnotes callee hcallee ?_)
    rw [isNative, ← hname, FunctionTable.get?_of_mem hfunctions hf, Option.any_some,
      Bool.eq_false_iff]
    exact fun h => hbody ((hp.functions f hf).assembly.1 h)

end

/-! ### The sections that are kept -/

theorem exists_of_mem_functionSections {F : FunctionTable} {n : Nat} {s : Section}
    (h : s ∈ functionSections F n fs) :
    ∃ f ∈ fs, ∃ body m, f.body = .statements body ∧ s = functionSection F f body m := by
  induction fs generalizing n with
  | nil => cases h
  | cons f rest ih =>
    unfold functionSections at h
    split at h
    · obtain ⟨f', hf', hs⟩ := ih h
      exact ⟨f', List.mem_cons_of_mem _ hf', hs⟩
    · next body hbody =>
      rcases List.mem_cons.1 h with rfl | h
      · exact ⟨f, List.mem_cons_self .., body, n, hbody, rfl⟩
      · obtain ⟨f', hf', hs⟩ := ih h
        exact ⟨f', List.mem_cons_of_mem _ hf', hs⟩

theorem exists_mem_functionSections (F : FunctionTable) (n : Nat) (hf : f ∈ fs)
    (hbody : f.body = .statements body) :
    ∃ m, functionSection F f body m ∈ functionSections F n fs := by
  induction fs generalizing n with
  | nil => cases hf
  | cons f' rest ih =>
    unfold functionSections
    rcases List.mem_cons.1 hf with rfl | hf
    · rw [hbody]
      exact ⟨n, List.mem_cons_self ..⟩
    · split
      · exact ih n hf
      · obtain ⟨m, hm⟩ := ih _ hf
        exact ⟨m, List.mem_cons_of_mem _ hm⟩

theorem sublist_functionSections (F : FunctionTable) (n : Nat) (fs : List FunctionDef) :
    ((functionSections F n fs).map (·.name)).Sublist (fs.map (·.name)) := by
  induction fs generalizing n with
  | nil => exact List.Sublist.refl _
  | cons f rest ih =>
    unfold functionSections
    split
    · exact (ih n).cons _
    · exact (ih _).cons_cons _

/-- The section that is added for control that must not come there. -/
def trapSections (F : FunctionTable) : List Section :=
  if hasTrap F then [] else [trapSection]

end Bytecode

open Bytecode Fallible

/-- What the compilation of a program yields: the names of the program are in scope, and the
sections of the functions that can be reached are kept. -/
structure Program.Compiled (p : Program) (N : Names) (kept : List Section) : Prop where
  globals_eq : GlobalTable.ofProgram p = .ok N.globals
  functions_eq : FunctionTable.ofProgram p = .ok N.functions
  inScope : ∀ f ∈ p.functions, ∀ body, f.body = .statements body →
    BlockScoped N (bindingsScope [] f.parameters.reverse) body
  sublist : kept.Sublist (functionSections N.functions 0 p.functions)
  mem_iff : ∀ s, s ∈ kept ↔ s ∈ functionSections N.functions 0 p.functions ∧ p.Reachable s.name

/-- How a program compiles: its functions are passed over with the tables of its names, and the
sections of the functions that calls lead to are kept. -/
theorem Program.toBytecode_eq_ok {p : Program} (h : p.toBytecode = .ok sections) :
    ∃ (N : Names) (graph : CallGraph),
      GlobalTable.ofProgram p = .ok N.globals ∧ FunctionTable.ofProgram p = .ok N.functions ∧
      GraphOf N.functions p.functions {} graph ∧
      (∀ f ∈ p.functions, ∀ body, f.body = .statements body →
        BlockScoped N (bindingsScope [] f.parameters.reverse) body) ∧
      sections = globalsCode p :: ((functionSections N.functions 0 p.functions).filter
        (fun s => (graph.root Program.unreachable).reachable.contains s.name) ++
          trapSections N.functions) := by
  simp only [Program.toBytecode, except_bind_eq_ok, mapError_eq_ok] at h
  obtain ⟨globals, hglobals, functions, hfunctions, ⟨all, graph⟩, hall, h⟩ := h
  cases h
  have hkeyed : Names.Keyed ⟨globals, functions⟩ :=
    fun _ _ hf => (FunctionTable.mem_of_get? hfunctions hf).2
  obtain ⟨rfl, hscoped⟩ := emitFunctions_eq_ok hkeyed hall
  have hgraph := graphOf_emitFunctions hkeyed (FunctionTable.nodup_of_ofProgram hfunctions) hall
  exact ⟨⟨globals, functions⟩, graph, hglobals, hfunctions, hgraph, hscoped, rfl⟩

/-- The sections of a program that compiles are the initial values, the functions that can be
reached, and what control finds where it must not come. -/
theorem Program.compiled_of_toBytecode {p : Program} (hp : p.Worded)
    (h : p.toBytecode = .ok sections) : ∃ N kept, p.Compiled N kept ∧
      sections = globalsCode p :: (kept ++ trapSections N.functions) := by
  obtain ⟨N, graph, hglobals, hfunctions, hgraph, hscoped, rfl⟩ := Program.toBytecode_eq_ok h
  refine ⟨N, _, ⟨hglobals, hfunctions, hscoped, List.filter_sublist, ?_⟩, rfl⟩
  intro s
  simp only [List.mem_filter, List.contains_iff_mem, CallGraph.mem_reachable_iff]
  refine and_congr_right fun hs => ⟨reachable_of_leads hgraph, fun hreachable => ?_⟩
  obtain ⟨f, hf, body, m, hbody, rfl⟩ := exists_of_mem_functionSections hs
  refine leads_of_reachable hgraph hp hfunctions hreachable hf rfl ?_
  rintro ⟨text, htext⟩
  rw [hbody] at htext
  cases htext

end Firestorm
