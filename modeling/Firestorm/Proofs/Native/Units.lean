import Firestorm.Proofs.Bytecode.Sections
import Firestorm.Proofs.Bytecode.Symbols
import Firestorm.Proofs.Native.Data
import Firestorm.Proofs.Native.Pieces
import Firestorm.Proofs.Symbols.Reachability

/-!
# The units of a native program

Native code is made of one unit for each function that is retained, of an entry and a trap if they
are needed, and of the data of globals and strings. This file says what each of these parts defines
and uses. Which functions are retained is said on the program alone: the entry point, the functions
that are marked to be kept, and what retained functions call, where a function that does not return
calls the trap at its end.

## Main definitions

* `Program.Retained`, `Native.UnitOf`, `Native.DataOf`, `Native.Assembled`.

## Main results

* `Native.functionUnit_eq_framed`, `Native.functionUnit_statements`,
  `Native.mem_reachable_callGraph`, `Native.assembled_of_toNative`.
-/

namespace Firestorm

open Fallible

/-- The strings in a function, in the order of its text. -/
def FunctionDef.strings (f : FunctionDef) : List String :=
  Stmt.stringsOf f.body.block

/-- Control must not come behind the last statement of a function: there it calls the trap. -/
def FunctionDef.EndsInTrap (f : FunctionDef) : Prop :=
  ¬ f.IsAssembly ∧ f.attributes.noreturn = true

/-- The string that a definition gives a global. -/
def GlobalDef.string? (g : GlobalDef) : Option String :=
  match g.init with
  | some (.str content) => some content
  | _ => none

/-- The names of what native code retains of a program. -/
inductive Program.Retained (p : Program) : String → Prop
  | kept {f : FunctionDef} (hf : f ∈ p.functions) (hkeep : f.attributes.keep = true) :
    Retained p f.name
  | entryPoint {f : FunctionDef} (hf : f ∈ p.functions) (hname : f.name = Program.entryPoint) :
    Retained p f.name
  | call {f : FunctionDef} (hf : f ∈ p.functions) (h : Retained p f.name) {callee : String}
    (hcallee : callee ∈ f.callees) : Retained p callee
  | trap {f : FunctionDef} (hf : f ∈ p.functions) (h : Retained p f.name) (htrap : f.EndsInTrap) :
    Retained p Program.unreachable

namespace Native

variable {c : Convention} {N : Names} {lo : Nat} {strings' : List String}

/-! ### Labels inside functions -/

theorem innerLabel_eq (function : String) (k : Nat) :
    innerLabel function k = ".L" ++ Bytecode.sectionSymbol function (toString k) := by
  rw [innerLabel, Bytecode.sectionSymbol, ← String.append_assoc, ← String.append_assoc]
  rfl

theorem exitLabel_eq (function : String) :
    exitLabel function = ".L" ++ Bytecode.sectionSymbol function "exit" := by
  have hdot : ".exit" = "." ++ "exit" := by decide
  calc exitLabel function = ".L" ++ function ++ ".exit" := rfl
    _ = ".L" ++ Bytecode.sectionSymbol function "exit" := by
      rw [hdot, Bytecode.sectionSymbol, String.append_assoc, String.append_assoc]

/-- A label inside a function is not the name of the function. -/
theorem ne_sectionSymbol (function suffix : String) :
    function ≠ ".L" ++ Bytecode.sectionSymbol function suffix := by
  intro h
  have hlength := congrArg String.length h
  have hdot : ".".length = 1 := rfl
  simp only [Bytecode.sectionSymbol, String.length_append] at hlength
  omega

theorem append_left_injective (s : String) : Function.Injective (s ++ ·) := by
  intro t t' h
  have hlist := congrArg String.toList h
  simp only [String.toList_append] at hlist
  exact String.toList_inj.1 (List.append_cancel_left hlist)

theorem innerLabel_injective (function : String) : Function.Injective (innerLabel function) := by
  intro k k' h
  rw [innerLabel_eq, innerLabel_eq] at h
  exact Bytecode.toString_injective (append_left_injective _ (append_left_injective _ h))

theorem toString_ne_exit (k : Nat) : toString k ≠ "exit" := by
  intro h
  have hdigit : ∀ c ∈ (toString k).toList, c.isDigit = true := by
    rw [Nat.toString_eq_repr, Nat.repr_eq_ofList_toDigits, String.toList_ofList]
    exact fun c hc => Nat.isDigit_of_mem_toDigits (by omega) (by omega) hc
  rw [h] at hdigit
  exact absurd (hdigit 'e' (by decide)) (by decide)

theorem innerLabel_ne_exitLabel (function : String) (k : Nat) :
    innerLabel function k ≠ exitLabel function := by
  intro h
  rw [innerLabel_eq, exitLabel_eq] at h
  exact toString_ne_exit k (append_left_injective _ (append_left_injective _ h))

/-- The labels in the body of a function, if those with the given numbers are defined, and the
exit. -/
def bodyLabels (function : String) (defined : List Nat) : List String :=
  defined.map (innerLabel function) ++ [exitLabel function]

theorem exists_of_mem_bodyLabels {function label : String} {defined : List Nat}
    (h : label ∈ bodyLabels function defined) :
    ∃ suffix, label = ".L" ++ Bytecode.sectionSymbol function suffix := by
  rcases List.mem_append.1 h with h | h
  · obtain ⟨k, -, rfl⟩ := List.mem_map.1 h
    exact ⟨_, innerLabel_eq ..⟩
  · rw [List.mem_singleton.1 h]
    exact ⟨_, exitLabel_eq _⟩

theorem nodup_bodyLabels {function : String} {defined : List Nat} (h : defined.Nodup) :
    (bodyLabels function defined).Nodup := by
  refine List.nodup_append.2 ⟨h.map (innerLabel_injective _), List.nodup_singleton _, ?_⟩
  intro label hlabel label' hlabel'
  obtain ⟨k, -, rfl⟩ := List.mem_map.1 hlabel
  rw [List.mem_singleton.1 hlabel']
  exact innerLabel_ne_exitLabel _ k

/-! ### Units -/

section

variable {n : Nat}

/-- The labels that a unit defines beside the name of its function. -/
def FunctionCode.labels (branches : Bool) (u : FunctionCode n) : List String :=
  (u.code.flatMap (Primitive.defined branches)).tail

/-- What the unit of a function defines, uses and calls, if the strings of the program are
`pool`. -/
structure UnitOf (branches : Bool) (N : Names) (pool : List String) (u : FunctionCode n) :
    Prop where
  mem_callees_iff : ∀ name, name ∈ u.callees ↔
    name ∈ u.function.callees ∨ u.function.EndsInTrap ∧ name = Program.unreachable
  resolves : ∀ name ∈ u.function.callees, ∃ f, N.functions.get? name = some f
  label_mem : .label u.function.name ∈ u.code
  defined_eq : u.code.flatMap (Primitive.defined branches) = u.function.name :: u.labels branches
  mem_labels : ∀ label ∈ u.labels branches, ∃ suffix,
    label = ".L" ++ Bytecode.sectionSymbol u.function.name suffix
  nodup_labels : (u.labels branches).Nodup
  uses : ∀ label ∈ u.code.flatMap (Primitive.used branches), label ∈ u.labels branches ∨
    (∃ k < pool.length, label = stringLabel k) ∨
    (∃ name d, N.globals.get? name = some d ∧ label = globalLabel name) ∨ label ∈ u.callees
  addresses_eq : u.code.filterMap Primitive.address? =
    u.function.strings.map fun content => stringLabel (pool.idxOf content)
  mem_strings : ∀ content ∈ u.function.strings, content ∈ pool
  string?_eq : u.code.filterMap Primitive.string? = []
  endsInTrap : ∀ frame, .epilogue frame true ∈ u.code → u.function.EndsInTrap

end

/-- What stands in front of the label of a function. -/
def exports {n : Nat} (f : FunctionDef) : List (Primitive n) :=
  if f.attributes.global then [.exportSymbol f.name] else []

/-- The code of a function around the code of its parameters and its statements. -/
def framed {c : Convention} (f : FunctionDef) (frame : Nat) (inner : List (Primitive c.registers)) :
    List (Primitive c.registers) :=
  exports f ++ ([Primitive.label f.name, Primitive.prologue frame] ++ inner ++
    [Primitive.loadConst (result c) 0, Primitive.label (exitLabel f.name),
      Primitive.epilogue frame f.attributes.noreturn])

theorem isInner_of_mem {n : Nat} {code : List (Primitive n)} (h : code.all Primitive.isInner = true)
    {p : Primitive n} (hp : p ∈ code) : p.isInner = true :=
  List.all_eq_true.1 h p hp

section

variable {c : Convention} {branches : Bool} {N : Names} {f : FunctionDef} {lo hi : Nat}
  {strings strings' : List String} {u : FunctionCode c.registers}

/-- The unit of a function with statements is the code of its parameters and its statements inside a
frame. -/
theorem functionUnit_eq_framed (hf : ¬ f.IsAssembly)
    (h : functionUnit c N lo strings f = .ok (u, hi, strings')) : ∃ body stores code s₁ s,
      f.body = .statements body ∧
      parameters c f.parameters 0 ⟨lo, strings, .reserving c.reserved, []⟩ = .ok (stores, s₁) ∧
      block c N f.name body s₁ = .ok (code, s) ∧ s.strings = strings' ∧ u.function = f ∧
      u.code = framed f s.layout.size (stores ++ code) ∧
      u.callees = if f.attributes.noreturn then Program.unreachable :: s.callees
      else s.callees := by
  obtain ⟨body, hbody⟩ := FunctionDef.not_isAssembly_iff.1 hf
  simp only [functionUnit, hbody, except_bind_eq_ok] at h
  obtain ⟨⟨code, s₃⟩, hcode, h⟩ := h
  cases h
  simp only [functionBody, bind_eq_ok] at hcode
  obtain ⟨stores, s₁, hstores, inner, s₂, hinner, hcode⟩ := hcode
  refine ⟨body, stores, inner, s₁, s₂, hbody, hstores, hinner, ?_⟩
  cases hnoreturn : f.attributes.noreturn with
  | true =>
    simp only [hnoreturn, if_true, bind_eq_ok, pure_eq_ok] at hcode
    obtain ⟨_, s₄, hnote, _, s₅, hget, rfl, rfl⟩ := hcode
    cases get_eq_ok.1 hget
    rw [noteCallee_eq_ok hnote]
    simp [framed, exports, hnoreturn]
  | false =>
    simp only [hnoreturn, Bool.false_eq_true, if_false, bind_eq_ok, pure_eq_ok] at hcode
    obtain ⟨_, s₄, hget, rfl, rfl⟩ := hcode
    cases get_eq_ok.1 hget
    simp [framed, exports, hnoreturn]

/-- The account of the code of the parameters and the statements of a function. -/
theorem emitted_body (branches : Bool) (hN : N.Keyed) {body : List Stmt} {s₀ s₁ s : GenerateState}
    {stores code : List (Primitive c.registers)} (hbody : f.body = .statements body)
    (hstores : parameters c f.parameters 0 s₀ = .ok (stores, s₁))
    (hcode : block c N f.name body s₁ = .ok (code, s)) :
    Emitted branches N f.name f.strings f.callees f.locals s₀ s (stores ++ code) := by
  have hparameters : Emitted branches N f.name [] [] f.parameters _ s₁ stores :=
    emitted_parameters hstores
  simpa only [FunctionDef.strings, FunctionDef.callees, FunctionDef.locals, hbody, Body.block,
    List.nil_append] using hparameters.append (emitted_block hN body _ _ _ hcode)

/-- The account of the unit of a function with statements. -/
theorem functionUnit_statements (branches : Bool) (hN : N.Keyed) (hf : ¬ f.IsAssembly)
    (h : functionUnit c N lo strings f = .ok (u, hi, strings')) : ∃ inner s,
      Emitted branches N f.name f.strings f.callees f.locals ⟨lo, strings, .reserving c.reserved,
        []⟩ s inner ∧
      s.strings = strings' ∧ u.function = f ∧ u.code = framed f s.layout.size inner ∧
      u.callees = if f.attributes.noreturn then Program.unreachable :: s.callees
      else s.callees := by
  obtain ⟨body, stores, code, s₁, s, hbody, hstores, hcode, hrest⟩ := functionUnit_eq_framed hf h
  exact ⟨stores ++ code, s, emitted_body branches hN hbody hstores hcode, hrest⟩

theorem functionUnit_assembly {text : String} (hbody : f.body = .assembly text)
    (h : functionUnit c N lo strings f = .ok (u, hi, strings')) :
    strings = strings' ∧ u.function = f ∧
      u.code = exports f ++ [Primitive.label f.name, Primitive.verbatim text] ∧ u.callees = [] := by
  unfold functionUnit at h
  simp only [hbody] at h
  cases h
  exact ⟨rfl, rfl, rfl, rfl⟩

end

variable {u : FunctionCode c.registers}

section

variable {n : Nat} {branches : Bool} {N : Names} {f : FunctionDef} {pool : List String}

theorem defined_exports :
    (exports f : List (Primitive n)).flatMap (Primitive.defined branches) = [] := by
  unfold exports
  split <;> rfl

theorem used_exports : (exports f : List (Primitive n)).flatMap (Primitive.used branches) = [] := by
  unfold exports
  split <;> rfl

theorem address?_exports : (exports f : List (Primitive n)).filterMap Primitive.address? = [] := by
  unfold exports
  split <;> rfl

theorem string?_exports : (exports f : List (Primitive n)).filterMap Primitive.string? = [] := by
  unfold exports
  split <;> rfl

theorem isExport_of_mem_exports {q : Primitive n} (h : q ∈ exports f) :
    ∃ symbol, q = .exportSymbol symbol := by
  unfold exports at h
  split at h
  · exact ⟨_, List.mem_singleton.1 h⟩
  · cases h

/-- The epilogue of a function is the one behind its body. -/
theorem eq_of_epilogue_mem_framed {frame frame' : Nat} {noreturn : Bool}
    {inner : List (Primitive c.registers)} (hinner : inner.all Primitive.isInner = true)
    (h : .epilogue frame' noreturn ∈ framed f frame inner) :
    frame' = frame ∧ noreturn = f.attributes.noreturn := by
  rcases List.mem_append.1 h with h | h
  · obtain ⟨symbol, heq⟩ := isExport_of_mem_exports h
    cases heq
  · have hnot : .epilogue frame' noreturn ∉ inner := fun hmem => by
      cases isInner_of_mem hinner hmem
    simpa [hnot] using h

theorem unitOf_assembly {u : FunctionCode n} {text : String}
    (hbody : u.function.body = .assembly text)
    (hcode : u.code = exports u.function ++ [Primitive.label u.function.name,
      Primitive.verbatim text]) (hcallees : u.callees = []) : UnitOf branches N pool u := by
  have hassembly : u.function.IsAssembly := ⟨text, hbody⟩
  have hdefined : u.code.flatMap (Primitive.defined branches) = [u.function.name] := by
    rw [hcode, List.flatMap_append, defined_exports]
    rfl
  have hlabels : u.labels branches = [] := congrArg List.tail hdefined
  refine ⟨fun name => ?_, ?_, ?_, ?_, ?_, ?_, ?_, ?_, ?_, ?_, ?_⟩
  · simp [hcallees, FunctionDef.EndsInTrap, hassembly, FunctionDef.callees, hbody, Body.block]
  · simp [FunctionDef.callees, hbody, Body.block]
  · simp [hcode]
  · rw [hlabels, hdefined]
  · simp [hlabels]
  · simp [hlabels]
  · simp [hcode, used_exports, Primitive.used]
  · rw [hcode, List.filterMap_append, address?_exports, FunctionDef.strings, hbody]
    rfl
  · simp [FunctionDef.strings, hbody, Body.block, Stmt.stringsOf]
  · rw [hcode, List.filterMap_append, string?_exports]
    rfl
  · intro frame hmem
    rw [hcode] at hmem
    rcases List.mem_append.1 hmem with hmem | hmem
    · obtain ⟨symbol, heq⟩ := isExport_of_mem_exports hmem
      cases heq
    · simp at hmem

/-- The unit of a function with statements, if its body is described by an account. -/
theorem unitOf_statements {inner : List (Primitive c.registers)} {s₀ s : GenerateState}
    {frame : Nat} (hf : ¬ u.function.IsAssembly)
    (hinner : Emitted branches N u.function.name u.function.strings u.function.callees
      u.function.locals s₀ s inner) (hs₀ : s₀.callees = []) (hpool : s.strings <+: pool)
    (hcode : u.code = framed u.function frame inner)
    (hnoted : u.callees =
      if u.function.attributes.noreturn then Program.unreachable :: s.callees else s.callees) :
    UnitOf branches N pool u := by
  obtain ⟨A, hstrings, hcallees, -, hA, htidy⟩ := hinner
  have hdefined : u.code.flatMap (Primitive.defined branches) = u.function.name ::
      bodyLabels u.function.name A.defined := by
    simp only [hcode, framed, List.flatMap_append, defined_exports, hA.defined_eq]
    rfl
  have hlabels : u.labels branches = bodyLabels u.function.name A.defined :=
    congrArg List.tail hdefined
  have hsub : s.callees ⊆ u.callees := by
    rw [hnoted]
    split
    · exact List.subset_cons_self ..
    · exact List.Subset.refl _
  refine ⟨fun name => ?_, ?_, ?_, ?_, ?_, ?_, ?_, ?_, ?_, ?_, ?_⟩
  · have hmem : name ∈ s.callees ↔ name ∈ u.function.callees := by
      rw [hA.mem_callees_iff, hcallees, hs₀]
      simp
    cases hnoreturn : u.function.attributes.noreturn <;>
      simp [hnoted, FunctionDef.EndsInTrap, hf, hnoreturn, hmem, or_comm]
  · exact fun name hname => hA.resolves name ((hcallees name).2 hname)
  · simp [hcode, framed]
  · rw [hlabels]
    exact hdefined
  · exact fun label hlabel => exists_of_mem_bodyLabels (hlabels ▸ hlabel)
  · exact hlabels ▸ nodup_bodyLabels (List.nodup_iff_count_le_one.2 fun k => (htidy k).1)
  · intro label hlabel
    have hlabel' : label ∈ inner.flatMap (Primitive.used branches) ∨
        u.function.attributes.noreturn = true ∧ label = Program.unreachable := by
      simp only [hcode, framed, List.flatMap_append, used_exports] at hlabel
      simpa [Primitive.used] using hlabel
    rcases hlabel' with hlabel | ⟨hnoreturn, rfl⟩
    · cases hA.uses label hlabel with
      | exit => exact .inl (by simp [hlabels, bodyLabels])
      | inner hk =>
        refine .inl ?_
        rw [hlabels]
        exact List.mem_append_left _ (List.mem_map_of_mem (htidy.jumps_subset hk))
      | string hk => exact .inr (.inl ⟨_, hk.trans_le hpool.length_le, rfl⟩)
      | global hd => exact .inr (.inr (.inl ⟨_, _, hd, rfl⟩))
      | callee hname => exact .inr (.inr (.inr (hsub hname)))
    · refine .inr (.inr (.inr ?_))
      simp [hnoted, hnoreturn]
  · simp only [hcode, framed, List.filterMap_append, address?_exports, hA.addresses_eq pool hpool,
      hstrings]
    exact List.append_nil _
  · exact fun content hcontent => hpool.subset (hA.mem_strings content (hstrings ▸ hcontent))
  · have hinner : inner.filterMap Primitive.string? = [] :=
      List.filterMap_eq_nil_iff.2 fun q hq =>
        Primitive.string?_of_isInner (isInner_of_mem hA.isInner_eq hq)
    simp only [hcode, framed, List.filterMap_append, string?_exports, hinner]
    rfl
  · intro frame' hmem
    exact ⟨hf, (eq_of_epilogue_mem_framed hA.isInner_eq (hcode ▸ hmem)).2.symm⟩

end

/-- The units of functions, in their order. -/
theorem unitOf_functionUnits (branches : Bool) (hN : N.Keyed) {fs : List FunctionDef}
    {strings : List String} {units : List (FunctionCode c.registers)}
    (h : functionUnits c N lo strings fs = .ok (units, strings')) :
    units.map (·.function) = fs ∧ strings <+: strings' ∧
      ∀ pool, strings' <+: pool → ∀ u ∈ units, UnitOf branches N pool u := by
  induction fs generalizing lo strings units with
  | nil =>
    cases h
    exact ⟨rfl, List.prefix_refl _, by simp⟩
  | cons f fs ih =>
    simp only [functionUnits, except_bind_eq_ok] at h
    obtain ⟨⟨u, hi, strings₁⟩, hu, ⟨units₁, strings₂⟩, hrest, h⟩ := h
    cases h
    obtain ⟨hmap, hgrow, hunits⟩ := ih hrest
    have hfirst : u.function = f ∧ strings <+: strings₁ ∧
        ∀ pool, strings₁ <+: pool → UnitOf branches N pool u := by
      by_cases hf : f.IsAssembly
      · obtain ⟨text, hbody⟩ := hf
        obtain ⟨rfl, rfl, hcode, hcallees⟩ := functionUnit_assembly hbody hu
        exact ⟨rfl, List.prefix_refl _, fun pool _ => unitOf_assembly hbody hcode hcallees⟩
      · obtain ⟨inner, s, hinner, rfl, rfl, hcode, hnoted⟩ :=
          functionUnit_statements branches hN hf hu
        refine ⟨rfl, ?_, fun pool hpool => unitOf_statements hf hinner rfl hpool hcode hnoted⟩
        obtain ⟨A, -, -, -, hA, -⟩ := hinner
        exact hA.strings_grow
    obtain ⟨rfl, hgrow', hunit⟩ := hfirst
    refine ⟨by rw [List.map_cons, hmap], hgrow'.trans hgrow, fun pool hpool => ?_⟩
    exact List.forall_mem_cons.2 ⟨hunit pool (hgrow.trans hpool), hunits pool hpool⟩

theorem function_of_functionUnit {f : FunctionDef} {hi : Nat} {strings : List String}
    (h : functionUnit c N lo strings f = .ok (u, hi, strings')) : u.function = f := by
  by_cases hf : f.IsAssembly
  · obtain ⟨text, hbody⟩ := hf
    exact (functionUnit_assembly hbody h).2.1
  · obtain ⟨_, _, _, _, _, _, _, _, _, hfunction, _⟩ := functionUnit_eq_framed hf h
    exact hfunction

/-- Every unit is the unit of its function. -/
theorem functionUnit_of_mem {fs : List FunctionDef} {strings : List String}
    {units : List (FunctionCode c.registers)}
    (h : functionUnits c N lo strings fs = .ok (units, strings')) (hu : u ∈ units) :
    ∃ lo hi strings strings', functionUnit c N lo strings u.function = .ok (u, hi, strings') := by
  induction fs generalizing lo strings units with
  | nil =>
    cases h
    cases hu
  | cons f fs ih =>
    simp only [functionUnits, except_bind_eq_ok] at h
    obtain ⟨⟨u', hi, strings₁⟩, hu', ⟨units₁, strings₂⟩, hrest, h⟩ := h
    cases h
    rcases List.mem_cons.1 hu with rfl | hu
    · rw [function_of_functionUnit hu']
      exact ⟨_, _, _, _, hu'⟩
    · exact ih hrest hu

/-! ### The graph of calls -/

variable {p : Program}

section

variable {n : Nat} {units : List (FunctionCode n)}

theorem mem_roots_foldl {name : String} (units : List (FunctionCode n)) (g : CallGraph) :
    name ∈ (units.foldl (fun g u => g.define u.function.name u.function.attributes u.callees)
      g).roots ↔ name ∈ g.roots ∨ ∃ u ∈ units, name = u.function.name ∧
        (u.function.attributes.keep = true ∨ u.function.name = Program.entryPoint) := by
  induction units generalizing g with
  | nil => simp
  | cons u units ih =>
    rw [List.foldl_cons, ih, CallGraph.mem_roots_define, or_assoc]
    simp only [List.mem_cons, exists_eq_or_imp]

theorem callees_foldl (hnodup : (units.map (·.function.name)).Nodup) (g : CallGraph) :
    (∀ u ∈ units, (units.foldl (fun g u => g.define u.function.name u.function.attributes u.callees)
        g).callees.get? u.function.name = some u.callees) ∧
      ∀ name, name ∉ units.map (·.function.name) →
        (units.foldl (fun g u => g.define u.function.name u.function.attributes u.callees)
          g).callees.get? name = g.callees.get? name := by
  induction units generalizing g with
  | nil => simp
  | cons u units ih =>
    obtain ⟨hnew, hnodup⟩ := List.nodup_cons.1 hnodup
    obtain ⟨hmem, hother⟩ := ih hnodup (g.define u.function.name u.function.attributes u.callees)
    refine ⟨List.forall_mem_cons.2 ⟨?_, hmem⟩, fun name hname => ?_⟩
    · rw [List.foldl_cons, hother _ hnew, CallGraph.callees_define, if_pos rfl]
    · obtain ⟨hne, hname⟩ := not_or.1 (List.mem_cons.not.1 hname)
      rw [List.foldl_cons, hother _ hname, CallGraph.callees_define, if_neg hne]

/-- The visit of the call graph finds the names that are retained. -/
theorem mem_reachable_callGraph {branches : Bool} {pool : List String}
    (hmap : units.map (·.function) = p.functions) (hnodup : (p.functions.map (·.name)).Nodup)
    (hunits : ∀ u ∈ units, UnitOf branches N pool u) (name : String) :
    name ∈ (callGraph units).reachable ↔ p.Retained name := by
  have hmem : ∀ f, f ∈ p.functions ↔ ∃ u ∈ units, u.function = f := by
    simp [← hmap]
  have hnames : units.map (·.function.name) = p.functions.map (·.name) := by
    rw [← hmap, List.map_map]
    rfl
  obtain ⟨hcallees, hnone⟩ := callees_foldl (hnames ▸ hnodup) {}
  rw [CallGraph.mem_reachable_iff]
  constructor
  · intro h
    induction h with
    | root h =>
      rcases (mem_roots_foldl units {}).1 h with h | ⟨u, hu, rfl, hroot⟩
      · cases h
      · have hf := (hmem _).2 ⟨u, hu, rfl⟩
        exact hroot.elim (.kept hf) (.entryPoint hf)
    | @call caller name callees _ hget h ih =>
      by_cases hcaller : caller ∈ units.map (·.function.name)
      · obtain ⟨u, hu, rfl⟩ := List.mem_map.1 hcaller
        have hf := (hmem _).2 ⟨u, hu, rfl⟩
        obtain rfl : u.callees = callees := Option.some.inj ((hcallees u hu).symm.trans hget)
        rcases ((hunits u hu).mem_callees_iff name).1 h with hname | ⟨htrap, rfl⟩
        · exact .call hf ih hname
        · exact .trap hf ih htrap
      · cases (hnone caller hcaller).symm.trans hget
  · intro h
    have hcall : ∀ f ∈ p.functions, (callGraph units).Leads f.name → ∀ callee,
        callee ∈ f.callees ∨ f.EndsInTrap ∧ callee = Program.unreachable →
        (callGraph units).Leads callee := by
      intro f hf hleads callee hcallee
      obtain ⟨u, hu, rfl⟩ := (hmem f).1 hf
      exact .call hleads (hcallees u hu) (((hunits u hu).mem_callees_iff callee).2 hcallee)
    induction h with
    | kept hf hkeep =>
      obtain ⟨u, hu, rfl⟩ := (hmem _).1 hf
      exact .root ((mem_roots_foldl units {}).2 (.inr ⟨u, hu, rfl, .inl hkeep⟩))
    | entryPoint hf hname =>
      obtain ⟨u, hu, rfl⟩ := (hmem _).1 hf
      exact .root ((mem_roots_foldl units {}).2 (.inr ⟨u, hu, rfl, .inr hname⟩))
    | call hf _ hcallee ih => exact hcall _ hf ih _ (.inl hcallee)
    | trap hf _ htrap ih => exact hcall _ hf ih _ (.inr ⟨htrap, rfl⟩)

end

/-! ### Data -/

section

variable {n : Nat} {strings strings' pool : List String}

/-- The data of a global that a string is given to is the address of the string. -/
theorem address?_globalDatum {g : GlobalDef} {datum : Datum}
    (h : globalDatum strings g = .ok (datum, strings')) : strings <+: strings' ∧
      (∀ content, g.string? = some content → content ∈ strings') ∧
      ∀ label pool, strings' <+: pool → (Primitive.datum label datum : Primitive n).address? =
        g.string?.map fun content => stringLabel (pool.idxOf content) := by
  unfold globalDatum at h
  split at h
  case h_8 content hinit hsize =>
    cases hi : internInto strings content with
    | mk i strings₁ =>
      simp only [hi] at h
      cases h
      refine ⟨(idxOf_of_internInto hi (List.prefix_refl _)).2, ?_, fun label pool hpool => ?_⟩
      · simpa [GlobalDef.string?, hinit] using mem_of_internInto hi
      · simp [GlobalDef.string?, hinit, Primitive.address?, (idxOf_of_internInto hi hpool).1]
  case h_7 => cases h
  all_goals
    next hinit _ =>
    cases h
    simp [GlobalDef.string?, hinit, Primitive.address?]

/-- What the data of globals defines and uses, if the strings of the program are `pool`. -/
structure DataOf (branches : Bool) (pool : List String) (gs : List GlobalDef)
    (data : List (Primitive n)) : Prop where
  defined_eq : data.flatMap (Primitive.defined branches) = gs.map fun g =>
    globalLabel g.binding.name
  used_eq : data.flatMap (Primitive.used branches) = data.filterMap Primitive.address?
  addresses_eq : data.filterMap Primitive.address? =
    (gs.filterMap GlobalDef.string?).map fun content => stringLabel (pool.idxOf content)
  mem_strings : ∀ content ∈ gs.filterMap GlobalDef.string?, content ∈ pool
  string?_eq : data.filterMap Primitive.string? = []
  isDatum : ∀ q ∈ data, ∃ label value, q = .datum label value

/-- The data of the first definitions of globals. -/
theorem dataOf_globalData (branches : Bool) {seen : List String} {gs : List GlobalDef}
    {data : List (Primitive n)} (h : globalData seen strings gs = .ok (data, strings')) :
    strings <+: strings' ∧ ∀ pool, strings' <+: pool →
      DataOf branches pool (Bytecode.firstDefinitions seen gs) data := by
  induction gs generalizing seen strings data with
  | nil =>
    cases h
    exact ⟨List.prefix_refl _,
      fun pool _ => ⟨rfl, rfl, rfl, by simp [Bytecode.firstDefinitions], rfl, by simp⟩⟩
  | cons g gs ih =>
    unfold globalData at h
    dsimp only at h
    rw [Bytecode.firstDefinitions]
    split at h
    · next hseen =>
      rw [if_pos hseen]
      exact ih h
    · next hnew =>
      rw [if_neg hnew]
      simp only [except_bind_eq_ok] at h
      obtain ⟨⟨value, strings₁⟩, hvalue, ⟨rest, strings₂⟩, hrest, h⟩ := h
      cases h
      obtain ⟨hgrow, hmem, haddress⟩ := address?_globalDatum (n := n) hvalue
      obtain ⟨hgrow', hdata⟩ := ih hrest
      refine ⟨hgrow.trans hgrow', fun pool hpool => ?_⟩
      have hdata := hdata pool hpool
      have haddress := haddress (globalLabel g.binding.name) pool (hgrow'.trans hpool)
      refine ⟨?_, ?_, ?_, ?_, ?_, ?_⟩
      · rw [List.flatMap_cons, hdata.defined_eq]
        rfl
      · rw [List.flatMap_cons, List.filterMap_cons, hdata.used_eq]
        cases value <;> rfl
      · rw [List.filterMap_cons, haddress, List.filterMap_cons, hdata.addresses_eq]
        cases g.string? <;> rfl
      · intro content hcontent
        rw [List.filterMap_cons] at hcontent
        cases hg : g.string? with
        | none =>
          rw [hg] at hcontent
          exact hdata.mem_strings content hcontent
        | some first =>
          rw [hg] at hcontent
          rcases List.mem_cons.1 hcontent with rfl | hcontent
          · exact (hgrow'.trans hpool).subset (hmem _ hg)
          · exact hdata.mem_strings content hcontent
      · rw [List.filterMap_cons, hdata.string?_eq]
        rfl
      · exact List.forall_mem_cons.2 ⟨⟨_, _, rfl⟩, hdata.isDatum⟩

theorem defined_stringData (branches : Bool) (pool : List String) :
    (stringData pool : List (Primitive n)).flatMap (Primitive.defined branches) =
      (List.range pool.length).map stringLabel := by
  have hflat : (stringData pool : List (Primitive n)).flatMap (Primitive.defined branches) =
      pool.zipIdx.map fun entry => stringLabel entry.2 := by
    rw [stringData, List.flatMap_map]
    exact List.flatMap_pure_eq_map ..
  rw [hflat, List.range_eq_range', ← List.zipIdx_map_snd 0 pool, List.map_map]
  rfl

theorem used_stringData (branches : Bool) (pool : List String) :
    (stringData pool : List (Primitive n)).flatMap (Primitive.used branches) = [] := by
  rw [stringData, List.flatMap_map, List.flatMap_eq_nil_iff]
  exact fun _ _ => rfl

theorem address?_stringData (pool : List String) :
    (stringData pool : List (Primitive n)).filterMap Primitive.address? = [] := by
  rw [stringData, List.filterMap_map, List.filterMap_eq_nil_iff]
  exact fun _ _ => rfl

theorem string?_stringData (pool : List String) :
    (stringData pool : List (Primitive n)).filterMap Primitive.string? =
      pool.zipIdx.map fun entry => (stringLabel entry.2, entry.1) := by
  rw [stringData, List.filterMap_map]
  exact congrFun (List.filterMap_eq_map
    (f := fun entry : String × Nat => (stringLabel entry.2, entry.1))) _

theorem isString_of_mem_stringData {q : Primitive n} (hq : q ∈ stringData pool) :
    ∃ label content, q = .string label content := by
  obtain ⟨entry, -, rfl⟩ := List.mem_map.1 hq
  exact ⟨_, _, rfl⟩

end

/-! ### Programs -/

/-- The parts of the native code of a program: the units of the retained functions, the entry and
the trap if they are needed, and the data of the globals, with strings that are all in the pool. -/
structure Assembled {n : Nat} (branches : Bool) (p : Program) (N : Names)
    (kept : List (FunctionCode n)) (entry trap data : List (Primitive n)) (pool : List String)
    (code : List (Primitive n)) : Prop where
  globals : GlobalTable.ofProgram p = .ok N.globals
  functions : FunctionTable.ofProgram p = .ok N.functions
  sublist : List.Sublist (kept.map (·.function)) p.functions
  mem_kept_iff : ∀ f ∈ p.functions, (∃ u ∈ kept, u.function = f) ↔ p.Retained f.name
  unitOf : ∀ u ∈ kept, UnitOf branches N pool u
  entry_eq : entry = [.entry Program.entryPoint] ∧
      p.Retained Program.entryPoint ∧ p.function? systemEntry = none ∨
    entry = [] ∧ (p.Retained Program.entryPoint → p.function? systemEntry ≠ none)
  trap_eq : trap = [.trap Program.unreachable] ∧
      (∃ u ∈ kept, u.function.attributes.noreturn = true) ∧ p.function? Program.unreachable = none ∨
    trap = [] ∧ ((∃ u ∈ kept, u.function.attributes.noreturn = true) →
      p.function? Program.unreachable ≠ none)
  dataOf : DataOf branches pool (Bytecode.firstDefinitions [] p.globals) data
  code_eq : code = [Primitive.text] ++ kept.flatMap FunctionCode.code ++ entry ++ trap ++
    [Primitive.data] ++ data ++ stringData pool

/-- Native code consists of its parts, and each retained function has its unit. -/
theorem assembled_units_of_toNative (branches : Bool) {code : List (Primitive c.registers)}
    (h : p.toNative c = .ok code) :
    ∃ N kept entry trap data pool, Assembled branches p N kept entry trap data pool code ∧
      ∀ u ∈ kept, ∃ lo hi strings strings',
        functionUnit c N lo strings u.function = .ok (u, hi, strings') := by
  simp only [Program.toNative, except_bind_eq_ok, mapError_eq_ok] at h
  obtain ⟨globals, hglobals, functions, hfunctions, ⟨units, strings⟩, hunits, ⟨data, pool⟩,
      hdata, h⟩ := h
  cases h
  have hkeyed : Names.Keyed ⟨globals, functions⟩ :=
    fun _ _ hf => (FunctionTable.mem_of_get? hfunctions hf).2
  obtain ⟨hmap, -, hunit⟩ := unitOf_functionUnits branches hkeyed hunits
  obtain ⟨hgrow, hdataOf⟩ := dataOf_globalData branches hdata
  have hunit := hunit pool hgrow
  have hreachable := mem_reachable_callGraph hmap
    (FunctionTable.nodup_of_ofProgram hfunctions) hunit
  refine ⟨⟨globals, functions⟩, _, _, _, data, pool,
    ⟨hglobals, hfunctions, ?_, fun f hf => ?_, fun u hu => ?_,
    ?_, ?_, hdataOf pool (List.prefix_refl _), rfl⟩,
    fun u hu => functionUnit_of_mem hunits (List.mem_filter.1 hu).1⟩
  · exact hmap ▸ List.Sublist.map _ List.filter_sublist
  · rw [← hreachable]
    rw [← hmap] at hf
    obtain ⟨u, hu, rfl⟩ := List.mem_map.1 hf
    constructor
    · rintro ⟨u', hu', heq⟩
      rw [← heq]
      exact List.contains_iff_mem.1 (List.mem_filter.1 hu').2
    · intro hmem
      exact ⟨u, List.mem_filter.2 ⟨hu, List.contains_iff_mem.2 hmem⟩, rfl⟩
  · exact hunit u (List.mem_filter.1 hu).1
  · rw [← hreachable, ← FunctionTable.get?_of_ofProgram hfunctions]
    split
    · next h => exact .inl ⟨rfl, by simpa using h⟩
    · next h => exact .inr ⟨rfl, by simpa using h⟩
  · rw [← FunctionTable.get?_of_ofProgram hfunctions]
    split
    · next h => exact .inl ⟨rfl, by simpa [and_assoc] using h⟩
    · next h => exact .inr ⟨rfl, by simpa [and_assoc] using h⟩

/-- Native code consists of its parts. -/
theorem assembled_of_toNative (branches : Bool) {code : List (Primitive c.registers)}
    (h : p.toNative c = .ok code) :
    ∃ N kept entry trap data pool, Assembled branches p N kept entry trap data pool code := by
  obtain ⟨N, kept, entry, trap, data, pool, hassembled, -⟩ := assembled_units_of_toNative branches h
  exact ⟨N, kept, entry, trap, data, pool, hassembled⟩

end Native

end Firestorm
