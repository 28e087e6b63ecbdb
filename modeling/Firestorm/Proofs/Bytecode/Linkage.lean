import Mathlib
import Firestorm.Proofs.Bytecode.Symbols

/-!
# Programs that compile can be linked

A program that compiles gives sections in which every symbol that is referred to is defined once, up
to two exceptions that the header makes: the entry point must have a section, and no function may
have the name of the section of the globals. Encoding fails only at native functions that the
machine does not have.

## Main definitions

* `Program.CallsUnknownNative`.

## Main results

* `Program.shortLabels_of_toBytecode`: a counter of 32 bits is enough for 2 ^ 32 labels.
* `Program.encode_link_of_toBytecode`: when sections are encoded and linked.
-/

namespace Firestorm

open Bytecode

namespace Bytecode

theorem isWord_entryPoint : IsWord Program.entryPoint := by decide

theorem isWord_unreachable : IsWord Program.unreachable := by decide

theorem eq_trapSection_of_mem {functions : FunctionTable} {s : Section}
    (h : s ∈ trapSections functions) : s = trapSection := by
  unfold trapSections at h
  split at h
  · cases h
  · exact List.mem_singleton.1 h

theorem wellFormed_trapSection (N : Names) : WellFormed N trapSection where
  readable := ⟨isWord_unreachable, by
    simp only [trapSection, number, plain, List.forall_mem_cons, Readable, true_and,
      List.not_mem_nil, false_imp_iff, implies_true, and_true]
    decide⟩
  labels := ⟨[], rfl, List.nodup_nil⟩
  targets _ := Iff.rfl
  references globals symbol hmem := by
    simp [sectionItems, trapSection, Naming.codeItems, Naming.lineItems,
      Naming.operandItems, number, plain] at hmem

/-! ### Labels of 32 bits -/

/-- The number of labels of a function. -/
def functionLabels (f : FunctionDef) : Nat :=
  match f.body with
  | .assembly _ => 0
  | .statements body => blockLabels body

/-- The functions share one counter, so no label is above the number of labels of all of them. -/
theorem label_lt_of_mem_functionSections {F : FunctionTable} {fs : List FunctionDef} {s : Section}
    {n k : Nat} (hs : s ∈ functionSections F n fs) (hk : .label (toString k) ∈ s.code) :
    k < n + (fs.map functionLabels).sum := by
  induction fs generalizing n with
  | nil => cases hs
  | cons f rest ih =>
    rw [List.map_cons, List.sum_cons]
    unfold functionSections at hs
    cases hbody : f.body with
    | assembly text =>
      rw [hbody] at hs
      rw [functionLabels, hbody, Nat.zero_add]
      exact ih hs
    | statements body =>
      rw [hbody] at hs
      rw [functionLabels, hbody]
      rcases List.mem_cons.1 hs with rfl | hs
      · obtain ⟨ms, hms, -, hrange⟩ := labelsWithin_blockCode F body n
        have hlabel := mem_labelsOf.2 hk
        rw [functionSection, labelsOf_functionCode, hms] at hlabel
        obtain ⟨m, hm, heq⟩ := List.mem_map.1 hlabel
        rw [← toString_injective heq]
        exact Nat.lt_of_lt_of_le (hrange m hm).2 (Nat.add_le_add_left (Nat.le_add_right ..) n)
      · rw [← Nat.add_assoc]
        exact ih hs

end Bytecode

namespace Program

/-- A function that can be reached calls an assembly function that the machine does not have. -/
def CallsUnknownNative (p : Program) (name : String) : Prop :=
  ∃ f ∈ p.functions, p.Reachable f.name ∧
    ∃ g ∈ p.functions, g.name = name ∧ name ∈ f.callees ∧ g.IsAssembly ∧ name ∉ natives

namespace Compiled

variable {p : Program} {N : Names} {kept : List Section}
variable {s : Section} {name : String}
variable (h : p.Compiled N kept)
include h

theorem worded (hp : p.Worded) : N.Worded where
  globals name d hd := by
    obtain ⟨g, hg, hbinding⟩ := GlobalTable.mem_of_get? h.globals_eq hd
    have hword := hp.globals g hg
    rwa [hbinding] at hword
  functions name f hf := by
    obtain ⟨hmem, rfl⟩ := FunctionTable.mem_of_get? h.functions_eq hf
    exact (hp.functions f hmem).name

/-- A kept section is the code of a function that can be reached. -/
theorem exists_of_mem (hs : s ∈ kept) :
    ∃ f ∈ p.functions, p.Reachable f.name ∧ ∃ body n, f.body = .statements body ∧
      s = functionSection N.functions f body n := by
  obtain ⟨hmem, hreachable⟩ := (h.mem_iff s).1 hs
  obtain ⟨f, hf, body, n, hbody, rfl⟩ := exists_of_mem_functionSections hmem
  exact ⟨f, hf, hreachable, body, n, hbody, rfl⟩

/-- A function that can be reached and has statements is kept. -/
theorem exists_mem {f : FunctionDef} (hf : f ∈ p.functions)
    (hreachable : p.Reachable f.name) {body : List Stmt} (hbody : f.body = .statements body) :
    ∃ n, functionSection N.functions f body n ∈ kept := by
  obtain ⟨n, hn⟩ := exists_mem_functionSections N.functions 0 hf hbody
  exact ⟨n, (h.mem_iff _).2 ⟨hn, hreachable⟩⟩

theorem wellFormed_of_mem (hp : p.Worded) (hs : s ∈ kept) : WellFormed N s := by
  obtain ⟨f, hf, -, body, n, hbody, rfl⟩ := h.exists_of_mem hs
  obtain ⟨ms, hms, hnodup, -⟩ := labelsWithin_blockCode N.functions body n
  refine wellFormed_of_codeFits (h.worded hp) (hp.functions f hf).name
    (fun globals => codeFits_functionCode globals n (h.inScope f hf body hbody)) ?_
    ⟨ms, ?_, hnodup⟩ ?_
  · intro b hb
    exact (hp.functions f hf).locals b ((declaredOf_functionCode _ n hbody b).1 hb)
  · rw [functionSection, labelsOf_functionCode, hms]
  · intro label
    rw [functionSection, labelsOf_functionCode, targetsOf_functionCode, mem_targetsOf_blockCode]

theorem noGlobals_of_mem (hs : s ∈ kept) : NoGlobals s.code := by
  obtain ⟨f, hf, -, body, n, -, rfl⟩ := h.exists_of_mem hs
  refine noGlobals_of_through (k := ⟨[], []⟩) ?_
  rw [functionSection, functionCode]
  split <;> simp

/-- The functions that are kept have different names. -/
theorem nodup_names : (kept.map (·.name)).Nodup :=
  ((h.sublist.map _).trans (sublist_functionSections ..)).nodup
    (FunctionTable.nodup_of_ofProgram h.functions_eq)

theorem mem_names_iff : name ∈ kept.map (·.name) ↔
      ∃ f ∈ p.functions, p.Reachable f.name ∧ ¬ f.IsAssembly ∧ f.name = name := by
  rw [List.mem_map]
  constructor
  · rintro ⟨s, hs, rfl⟩
    obtain ⟨f, hf, hreachable, body, n, hbody, rfl⟩ := h.exists_of_mem hs
    exact ⟨f, hf, hreachable, FunctionDef.not_isAssembly_iff.2 ⟨body, hbody⟩, rfl⟩
  · rintro ⟨f, hf, hreachable, hassembly, rfl⟩
    obtain ⟨body, hbody⟩ := FunctionDef.not_isAssembly_iff.1 hassembly
    obtain ⟨n, hn⟩ := h.exists_mem hf hreachable hbody
    exact ⟨_, hn, rfl⟩

theorem hasTrap_iff :
    hasTrap N.functions = true ↔ Program.unreachable ∈ kept.map (·.name) := by
  rw [h.mem_names_iff]
  unfold hasTrap
  constructor
  · intro htrap
    cases hf : N.functions.get? Program.unreachable with
    | none => simp [hf] at htrap
    | some f =>
      obtain ⟨hmem, hname⟩ := FunctionTable.mem_of_get? h.functions_eq hf
      refine ⟨f, hmem, hname ▸ .unreachable, ?_, hname⟩
      rintro ⟨text, htext⟩
      simp [hf, htext] at htrap
  · rintro ⟨f, hf, -, hassembly, hname⟩
    obtain ⟨body, hbody⟩ := FunctionDef.not_isAssembly_iff.1 hassembly
    rw [← hname, FunctionTable.get?_of_mem h.functions_eq hf]
    simp [hbody]

/-- The sections behind that of the globals have different names. -/
theorem nodup_names_sections :
    ((kept ++ trapSections N.functions).map (·.name)).Nodup := by
  unfold trapSections
  split
  · rw [List.append_nil]
    exact h.nodup_names
  · next htrap =>
    rw [List.map_append, List.nodup_append]
    refine ⟨h.nodup_names, List.nodup_singleton _, ?_⟩
    rintro name hname other hother rfl
    rw [List.map_singleton, List.mem_singleton] at hother
    subst hother
    exact htrap (h.hasTrap_iff.2 hname)

theorem unreachable_mem_names :
    Program.unreachable ∈ (kept ++ trapSections N.functions).map (·.name) := by
  unfold trapSections
  split
  · next htrap =>
    rw [List.append_nil]
    exact h.hasTrap_iff.1 htrap
  · simp [trapSection]

theorem wellFormed_sections (hp : p.Worded) :
    ∀ s ∈ globalsCode p :: (kept ++ trapSections N.functions), WellFormed N s := by
  intro s hs
  simp only [List.mem_cons, List.mem_append] at hs
  rcases hs with rfl | hs | hs
  · exact wellFormed_globalsCode (h.worded hp) fun g hg =>
      ⟨_, GlobalTable.get?_of_mem h.globals_eq hg⟩
  · exact h.wellFormed_of_mem hp hs
  · exact eq_trapSection_of_mem hs ▸ wellFormed_trapSection N

theorem noGlobals_sections :
    ∀ s ∈ kept ++ trapSections N.functions, NoGlobals s.code := by
  intro s hs
  rcases List.mem_append.1 hs with hs | hs
  · exact h.noGlobals_of_mem hs
  · rw [eq_trapSection_of_mem hs]
    simp [NoGlobals, trapSection, number, plain]

/-- The items of a compiled program: those of its globals, and behind them those of its
functions. -/
theorem sectionsItems_eq :
    sectionsItems [] (globalsCode p :: (kept ++ trapSections N.functions)) =
      sectionItems [] (globalsCode p) ++
        (kept ++ trapSections N.functions).flatMap (sectionItems (globalNames p)) := by
  rw [sectionsItems, globalsThrough_globalsCode, sectionsItems_of_noGlobals h.noGlobals_sections]

/-- The symbols of a compiled program. -/
theorem symbolsOf_sections (hp : p.Worded)
    (hshort : ∀ s ∈ kept ++ trapSections N.functions, ShortLabels s) :
    symbolsOf (sectionsItems [] (globalsCode p :: (kept ++ trapSections N.functions))) =
      globalsSection :: ((globalNames p).map globalSymbol ++
        (kept ++ trapSections N.functions).flatMap sectionSymbols) := by
  have hwf := (List.forall_mem_cons.1 (h.wellFormed_sections hp)).2
  have hrest : symbolsOf
      ((kept ++ trapSections N.functions).flatMap (sectionItems (globalNames p))) =
      (kept ++ trapSections N.functions).flatMap sectionSymbols := by
    rw [symbolsOf, List.filterMap_flatMap]
    exact List.flatMap_congr fun s hs =>
      symbolsOf_sectionItems (hwf s hs) (hshort s hs) (h.noGlobals_sections s hs) _
  rw [h.sectionsItems_eq, symbolsOf_append, symbolsOf_globalsCode, hrest]
  rfl

/-- Up to the name of the first section, no symbol of a compiled program is defined twice. -/
theorem nodup_symbols (hp : p.Worded) :
    ((globalNames p).map globalSymbol ++
      (kept ++ trapSections N.functions).flatMap sectionSymbols).Nodup := by
  have hwf := (List.forall_mem_cons.1 (h.wellFormed_sections hp)).2
  rw [List.nodup_append]
  refine ⟨(nodup_firstDefinitions [] p.globals).map globalSymbol_injective,
    nodup_sectionsSymbols hwf h.nodup_names_sections, ?_⟩
  rintro symbol hsymbol other hother rfl
  obtain ⟨name, -, rfl⟩ := List.mem_map.1 hsymbol
  obtain ⟨s, hs, hmem⟩ := List.mem_flatMap.1 hother
  have hword := (hwf s hs).readable.name
  rcases List.mem_cons.1 hmem with heq | hlabel
  · exact ne_globalSymbol_of_isWord hword name heq.symm
  · obtain ⟨label, -, hlabel⟩ := List.mem_map.1 hlabel
    exact globalSymbol_ne_sectionSymbol hword label hlabel.symm

omit h in
/-- Among these symbols the words are the names of sections. -/
theorem mem_symbols_iff {sections : List Section} (globals : List String) (hword : IsWord name) :
    name ∈ globals.map globalSymbol ++ sections.flatMap sectionSymbols ↔
      name ∈ sections.map (·.name) := by
  constructor
  · intro h
    rcases List.mem_append.1 h with h | h
    · obtain ⟨other, -, heq⟩ := List.mem_map.1 h
      exact absurd heq.symm (ne_globalSymbol_of_isWord hword other)
    · obtain ⟨s, hs, hmem⟩ := List.mem_flatMap.1 h
      rcases List.mem_cons.1 hmem with rfl | hlabel
      · exact List.mem_map_of_mem hs
      · obtain ⟨label, -, heq⟩ := List.mem_map.1 hlabel
        exact absurd heq.symm (ne_sectionSymbol_of_isWord hword _ label)
  · intro h
    obtain ⟨s, hs, rfl⟩ := List.mem_map.1 h
    exact List.mem_append_right _ (List.mem_flatMap.2 ⟨s, hs, List.mem_cons_self ..⟩)

/-- The functions that kept sections invoke are kept. -/
theorem mem_names_of_invokes (hp : p.Worded)
    (hs : s ∈ globalsCode p :: (kept ++ trapSections N.functions)) (hname : name ∈ invokes s.code) :
    name ∈ kept.map (·.name) := by
  simp only [List.mem_cons, List.mem_append] at hs
  rcases hs with rfl | hs | hs
  · rw [invokes_globalsCode] at hname
    cases hname
  · obtain ⟨f, hf, hreachable, body, n, hbody, rfl⟩ := h.exists_of_mem hs
    have hcallee := (mem_callsOf_functionCode _ hbody n name).1 (mem_callsOf_of_invokes hname)
    obtain ⟨k, hnative, g, hg⟩ := Naming.exists_fits_of_mem
      (codeFits_functionCode [] n (h.inScope f hf body hbody)) (mem_invokes.1 hname)
    obtain ⟨hmem, rfl⟩ := FunctionTable.mem_of_get? h.functions_eq hg
    refine h.mem_names_iff.2 ⟨g, hmem, .call hf hreachable hcallee, fun hassembly => ?_, rfl⟩
    rw [← (hp.functions g hmem).assembly] at hassembly
    simp [isNative, hg, hassembly] at hnative
  · rw [eq_trapSection_of_mem hs] at hname
    simp [trapSection, invokes, invoked?, number, plain] at hname

theorem reference_mem (hp : p.Worded) {symbol : String}
    (hmem : .reference symbol ∈
      sectionsItems [] (globalsCode p :: (kept ++ trapSections N.functions))) :
    symbol ∈ (globalNames p).map globalSymbol ++
      (kept ++ trapSections N.functions).flatMap sectionSymbols := by
  obtain ⟨s, hs, globals, hmem⟩ : ∃ s ∈ globalsCode p :: (kept ++ trapSections N.functions),
      ∃ globals, .reference symbol ∈ sectionItems globals s := by
    rw [h.sectionsItems_eq, List.mem_append, List.mem_flatMap] at hmem
    rcases hmem with hmem | ⟨s, hs, hmem⟩
    · exact ⟨_, List.mem_cons_self .., _, hmem⟩
    · exact ⟨s, List.mem_cons_of_mem _ hs, _, hmem⟩
  rcases (h.wellFormed_sections hp s hs).references globals symbol hmem
    with ⟨name, d, hd, rfl⟩ | ⟨label, hlabel, rfl⟩ | hinvoke
  · obtain ⟨g, hg, hbinding⟩ := GlobalTable.mem_of_get? h.globals_eq hd
    exact List.mem_append_left _ (List.mem_map_of_mem (mem_globalNames.2 ⟨g, hg, by rw [hbinding]⟩))
  · rcases List.mem_cons.1 hs with rfl | hs
    · simp at hlabel
    · refine List.mem_append_right _ (List.mem_flatMap.2 ⟨s, hs, List.mem_cons_of_mem _ ?_⟩)
      exact List.mem_map_of_mem hlabel
  · obtain ⟨s', hs', rfl⟩ := List.mem_map.1 (h.mem_names_of_invokes hp hs hinvoke)
    refine List.mem_append_right _ (List.mem_flatMap.2 ⟨s', List.mem_append_left _ hs', ?_⟩)
    exact List.mem_cons_self ..

theorem isNative_iff (hp : p.Worded) :
    isNative N.functions name = true ↔ ∃ g ∈ p.functions, g.name = name ∧ g.IsAssembly := by
  constructor
  · intro hnative
    cases hg : N.functions.get? name with
    | none => simp [isNative, hg] at hnative
    | some g =>
      obtain ⟨hmem, hname⟩ := FunctionTable.mem_of_get? h.functions_eq hg
      refine ⟨g, hmem, hname, (hp.functions g hmem).assembly.1 ?_⟩
      simpa [isNative, hg] using hnative
  · rintro ⟨g, hg, rfl, hassembly⟩
    simp [isNative, FunctionTable.get?_of_mem h.functions_eq hg,
      (hp.functions g hg).assembly.2 hassembly]

/-- The native functions that compiled code calls and the machine does not have. -/
theorem invokeNative_mem_iff (hp : p.Worded) :
    (∃ s ∈ globalsCode p :: (kept ++ trapSections N.functions),
      .instruction (.invokeNative name) ∈ s.code ∧ name ∉ natives) ↔ p.CallsUnknownNative name := by
  constructor
  · rintro ⟨s, hs, hmem, hunknown⟩
    simp only [List.mem_cons, List.mem_append] at hs
    rcases hs with rfl | hs | hs
    · have hcall : name ∈ callsOf (globalsCode p).code := List.mem_filterMap.2 ⟨_, hmem, rfl⟩
      simp at hcall
    · obtain ⟨f, hf, hreachable, body, n, hbody, rfl⟩ := h.exists_of_mem hs
      obtain ⟨k, hnative⟩ := Naming.exists_fits_of_mem
        (codeFits_functionCode [] n (h.inScope f hf body hbody)) hmem
      obtain ⟨g, hg, hname, hassembly⟩ := (h.isNative_iff hp).1 hnative
      have hcallee := (mem_callsOf_functionCode N.functions hbody n name).1
        (List.mem_filterMap.2 ⟨_, hmem, rfl⟩)
      exact ⟨f, hf, hreachable, g, hg, hname, hcallee, hassembly, hunknown⟩
    · rw [eq_trapSection_of_mem hs] at hmem
      simp only [trapSection, number, plain, List.mem_cons, CodeLine.instruction.injEq,
        reduceCtorEq, Instruction.invokeNative.injEq, List.not_mem_nil, or_false, false_or] at hmem
      exact absurd (hmem ▸ by decide) hunknown
  · rintro ⟨f, hf, hreachable, g, hg, hname, hcallee, hassembly, hunknown⟩
    cases hbody : f.body with
    | assembly text => simp [FunctionDef.callees, hbody, Body.block] at hcallee
    | statements body =>
      obtain ⟨n, hn⟩ := h.exists_mem hf hreachable hbody
      have hcall := mem_of_mem_callsOf (codeFits_functionCode [] n (h.inScope f hf body hbody))
        ((mem_callsOf_functionCode N.functions hbody n name).2 hcallee)
      rw [callLine, (h.isNative_iff hp).2 ⟨g, hg, hname, hassembly⟩] at hcall
      exact ⟨_, List.mem_cons_of_mem _ (List.mem_append_left _ hn), hcall, hunknown⟩

theorem known_iff (hp : p.Worded) :
    (∀ s ∈ globalsCode p :: (kept ++ trapSections N.functions), ∀ line ∈ s.code, Known line) ↔
      ∀ name, ¬ p.CallsUnknownNative name := by
  constructor
  · intro hknown name hcalls
    obtain ⟨s, hs, hmem, hunknown⟩ := (h.invokeNative_mem_iff hp).2 hcalls
    exact hunknown (hknown s hs _ hmem name rfl)
  · rintro hcalls s hs line hline callee rfl
    by_contra hunknown
    exact hcalls callee ((h.invokeNative_mem_iff hp).1 ⟨s, hs, hline, hunknown⟩)

end Compiled

/-- The outcome of encoding sections: it fails exactly at a call of a native function that the
machine does not have. -/
theorem Compiled.encode_eq {p : Program} {N : Names} {kept : List Section} (hp : p.Worded)
    (h : p.Compiled N kept) :
    (encode (Section.renderAll (globalsCode p :: (kept ++ trapSections N.functions))) =
        .ok (sectionsItems [] (globalsCode p :: (kept ++ trapSections N.functions))) ∧
      ∀ name, ¬ p.CallsUnknownNative name) ∨
    ∃ line name, encode (Section.renderAll (globalsCode p :: (kept ++ trapSections N.functions))) =
        .error (.unknownNative line name) ∧ p.CallsUnknownNative name := by
  have hreadable := fun s hs => (h.wellFormed_sections hp s hs).readable
  by_cases hknown : ∀ s ∈ globalsCode p :: (kept ++ trapSections N.functions),
      ∀ line ∈ s.code, Known line
  · exact .inl ⟨encode_renderAll hreadable hknown, (h.known_iff hp).1 hknown⟩
  · obtain ⟨line, name, herror, hunknown, s, hs, hmem⟩ := encode_renderAll_unknown hreadable hknown
    exact .inr ⟨line, name, herror, (h.invokeNative_mem_iff hp).1 ⟨s, hs, hmem, hunknown⟩⟩

section

variable {p : Program} {N : Names} {kept : List Section}

theorem Compiled.mem_names_sections_iff (h : p.Compiled N kept) {name : String}
    (hname : name ≠ unreachable) : name ∈ (kept ++ trapSections N.functions).map (·.name) ↔
      ∃ f ∈ p.functions, p.Reachable f.name ∧ ¬ f.IsAssembly ∧ f.name = name := by
  rw [List.map_append, List.mem_append, h.mem_names_iff]
  refine or_iff_left ?_
  unfold trapSections
  split
  · simp
  · simpa [trapSection] using hname

theorem Compiled.reference_cases (hp : p.Worded) (h : p.Compiled N kept) {symbol : String}
    (hmem : .reference symbol ∈ headerItems ++
      sectionsItems [] (globalsCode p :: (kept ++ trapSections N.functions))) :
    symbol = entryPoint ∨ symbol = globalsSection ∨ symbol ∈ (globalNames p).map globalSymbol ++
      (kept ++ trapSections N.functions).flatMap sectionSymbols := by
  rcases List.mem_append.1 hmem with hheader | hitems
  · simp only [headerItems, List.mem_cons, Item.reference.injEq, List.not_mem_nil, or_false]
      at hheader
    refine hheader.imp_right (Or.imp_right ?_)
    rintro rfl
    exact (Compiled.mem_symbols_iff _ isWord_unreachable).2 h.unreachable_mem_names
  · exact .inr (.inr (h.reference_mem hp hitems))

end

/-- Up to 2 ^ 32 labels a counter of 32 bits gives every label a number of its own. -/
theorem shortLabels_of_toBytecode {p : Program} {sections : List Section}
    (hsections : p.toBytecode = .ok sections)
    (hlabels : (p.functions.map functionLabels).sum ≤ 2 ^ 32) : ∀ s ∈ sections, ShortLabels s := by
  obtain ⟨N, graph, -, -, -, -, rfl⟩ := toBytecode_eq_ok hsections
  intro s hs k hk
  rcases List.mem_cons.1 hs with rfl | hs
  · have hlabel := mem_labelsOf.2 hk
    rw [labelsOf_globalsCode] at hlabel
    cases hlabel
  rcases List.mem_append.1 hs with hs | hs
  · have hlt := label_lt_of_mem_functionSections (List.mem_of_mem_filter hs) hk
    omega
  · rw [eq_trapSection_of_mem hs] at hk
    exact absurd hk (by simp [trapSection, number, plain])

/-- A program that compiles is encoded unless a function that can be reached calls a native function
that the machine does not have. What is encoded is linked exactly if the entry point has statements
and no function that can be reached has the name of the section of the globals; every other symbol
that is referred to is defined exactly once. -/
theorem encode_link_of_toBytecode {text : String} {tokens : List (Located Token)} {p : Program}
    {sections : List Section} (htokens : tokenize text = .ok tokens) (hparse : parse tokens = .ok p)
    (hsections : p.toBytecode = .ok sections) (hshort : ∀ s ∈ sections, ShortLabels s) :
    ((∃ e, encode (Section.renderAll sections) = .error e) ↔ ∃ name, p.CallsUnknownNative name) ∧
    (∀ e, encode (Section.renderAll sections) = .error e →
      ∃ line name, e = .unknownNative line name ∧ p.CallsUnknownNative name) ∧
    ∀ items, encode (Section.renderAll sections) = .ok items →
      ((∃ image, link items = .ok image) ↔
        (∃ f ∈ p.functions, f.name = entryPoint ∧ ¬ f.IsAssembly) ∧
          ∀ f ∈ p.functions, p.Reachable f.name → ¬ f.IsAssembly → f.name ≠ globalsSection) ∧
      (∀ e, link items = .error e → e = .duplicate globalsSection ∨ e = .unresolved entryPoint) ∧
      (∀ symbol, .reference symbol ∈ headerItems ++ items → symbol ≠ entryPoint →
        symbol ≠ globalsSection → (symbolsOf items).count symbol = 1) := by
  have hp := worded_of_parse htokens hparse
  obtain ⟨N, kept, h, rfl⟩ := compiled_of_toBytecode hp hsections
  rcases h.encode_eq hp with ⟨hencode, hcalls⟩ | ⟨line, name, hencode, hcalls⟩
  · rw [hencode]
    refine ⟨by simpa using hcalls, by simp, ?_⟩
    rintro items hitems
    cases hitems
    have hsymbols := h.symbolsOf_sections hp fun s hs => hshort s (List.mem_cons_of_mem _ hs)
    have hnodup := h.nodup_symbols hp
    obtain ⟨hlink, herror, hcount⟩ := link_of_symbols hsymbols hnodup (by decide)
      (List.mem_append_left _ (by simp [headerItems])) fun symbol => h.reference_cases hp
    refine ⟨hlink.trans ?_, herror, hcount⟩
    rw [Compiled.mem_symbols_iff _ isWord_entryPoint,
      Compiled.mem_symbols_iff _ isWord_globalsSection, h.mem_names_sections_iff (by decide),
      h.mem_names_sections_iff (by decide)]
    constructor
    · rintro ⟨⟨f, hf, -, hbody, hname⟩, hglobals⟩
      exact ⟨⟨f, hf, hname, hbody⟩, fun f hf hreachable hbody hname =>
        hglobals ⟨f, hf, hreachable, hbody, hname⟩⟩
    · rintro ⟨⟨f, hf, hname, hbody⟩, hglobals⟩
      exact ⟨⟨f, hf, hname ▸ .entryPoint, hbody, hname⟩,
        fun ⟨f, hf, hreachable, hbody, hname⟩ => hglobals f hf hreachable hbody hname⟩
  · rw [hencode]
    refine ⟨⟨fun _ => ⟨name, hcalls⟩, fun _ => ⟨_, rfl⟩⟩, ?_, by simp⟩
    rintro e he
    cases he
    exact ⟨line, name, rfl, hcalls⟩

/-- The text of a program that writes a letter through a function while a global lasts. -/
def countdownText : String := "int left = 2;
function(assembly) printc(chr c) -> int \x7b \"\" \x7d
function put(chr c) -> int \x7b return printc(c); \x7d
function spark(int argc, str[] argv) -> int \x7b
  while (left) \x7b put('a'); left--; \x7d
  return left;
\x7d"

/-- The tokens of `countdownText`. -/
def countdownTokens : List (Located Token) := [
  ⟨0, .keyword .int⟩, ⟨4, .id "left"⟩, ⟨9, .assign⟩, ⟨11, .int 2⟩, ⟨12, .semicolon⟩,
  ⟨14, .keyword .function⟩, ⟨22, .openParen⟩, ⟨23, .id "assembly"⟩, ⟨31, .closeParen⟩,
  ⟨33, .id "printc"⟩, ⟨39, .openParen⟩, ⟨40, .keyword .chr⟩, ⟨44, .id "c"⟩, ⟨45, .closeParen⟩,
  ⟨47, .arrow⟩, ⟨50, .keyword .int⟩, ⟨54, .openCurly⟩, ⟨56, .str ""⟩, ⟨59, .closeCurly⟩,
  ⟨61, .keyword .function⟩, ⟨70, .id "put"⟩, ⟨73, .openParen⟩, ⟨74, .keyword .chr⟩, ⟨78, .id "c"⟩,
  ⟨79, .closeParen⟩, ⟨81, .arrow⟩, ⟨84, .keyword .int⟩, ⟨88, .openCurly⟩, ⟨90, .keyword .return_⟩,
  ⟨97, .id "printc"⟩, ⟨103, .openParen⟩, ⟨104, .id "c"⟩, ⟨105, .closeParen⟩, ⟨106, .semicolon⟩,
  ⟨108, .closeCurly⟩, ⟨110, .keyword .function⟩, ⟨119, .id "spark"⟩, ⟨124, .openParen⟩,
  ⟨125, .keyword .int⟩, ⟨129, .id "argc"⟩, ⟨133, .comma⟩, ⟨135, .keyword .str⟩, ⟨138, .openSquare⟩,
  ⟨139, .closeSquare⟩, ⟨141, .id "argv"⟩, ⟨145, .closeParen⟩, ⟨147, .arrow⟩, ⟨150, .keyword .int⟩,
  ⟨154, .openCurly⟩, ⟨158, .keyword .while_⟩, ⟨164, .openParen⟩, ⟨165, .id "left"⟩,
  ⟨169, .closeParen⟩, ⟨171, .openCurly⟩, ⟨173, .id "put"⟩, ⟨176, .openParen⟩, ⟨177, .chr 97⟩,
  ⟨180, .closeParen⟩, ⟨181, .semicolon⟩, ⟨183, .id "left"⟩, ⟨187, .decrement⟩, ⟨189, .semicolon⟩,
  ⟨191, .closeCurly⟩, ⟨195, .keyword .return_⟩, ⟨202, .id "left"⟩, ⟨206, .semicolon⟩,
  ⟨208, .closeCurly⟩]

/-- The functions of `countdownText`. -/
def countdownFunctions : List FunctionDef := [
  ⟨"printc", { assembly := true }, [⟨"c", .chr⟩], .int, .assembly ""⟩,
  ⟨"put", {}, [⟨"c", .chr⟩], .int, .statements [.return_ (some (.call "printc" [.lookup "c"]))]⟩,
  ⟨"spark", {}, [⟨"argc", .int⟩, ⟨"argv", ⟨.str, true⟩⟩], .int, .statements [
    .while_ (.lookup "left") [.expr (.call "put" [.literal (.chr 97)]), .decrement "left"],
    .return_ (some (.lookup "left"))]⟩]

/-- The program of `countdownText`. -/
def countdown : Program :=
  ⟨.global ⟨⟨"left", .int⟩, some (.number 2)⟩ :: countdownFunctions.map .function⟩

theorem functions_countdown : countdown.functions = countdownFunctions := rfl

theorem tokenize_countdownText : tokenize countdownText = .ok countdownTokens := by
  cbv

theorem parse_countdownTokens : parse countdownTokens = .ok countdown := by
  rfl

theorem toBytecode_countdown :
    ∃ sections, countdown.toBytecode = .ok sections ∧ ∀ s ∈ sections, ShortLabels s := by
  have hsections : countdown.toBytecode.toOption.isSome = true := by
    decide +kernel
  obtain ⟨sections, hsections⟩ := Fallible.exists_ok_of_isSome hsections
  exact ⟨sections, hsections, shortLabels_of_toBytecode hsections (by decide)⟩

/-- The countdown is encoded and linked. -/
theorem encode_link_of_toBytecode_countdown : ∃ sections,
    tokenize countdownText = .ok countdownTokens ∧ parse countdownTokens = .ok countdown ∧
      countdown.toBytecode = .ok sections ∧ (∀ s ∈ sections, ShortLabels s) ∧
      ∃ items image, encode (Section.renderAll sections) = .ok items ∧ link items = .ok image := by
  have htokens := tokenize_countdownText
  have hparse := parse_countdownTokens
  obtain ⟨sections, hsections, hshort⟩ := toBytecode_countdown
  refine ⟨sections, htokens, hparse, hsections, hshort, ?_⟩
  obtain ⟨hencode, -, hlink⟩ := encode_link_of_toBytecode htokens hparse hsections hshort
  cases hitems : encode (Section.renderAll sections) with
  | error e =>
    obtain ⟨name, f, -, -, g, hg, rfl, -, hassembly, hunknown⟩ := hencode.1 ⟨e, hitems⟩
    simp only [functions_countdown, countdownFunctions, List.mem_cons, List.not_mem_nil,
      or_false] at hg
    rcases hg with rfl | rfl | rfl
    · exact absurd (by decide) hunknown
    · obtain ⟨text, htext⟩ := hassembly
      cases htext
    · obtain ⟨text, htext⟩ := hassembly
      cases htext
  | ok items =>
    have hentry : ∃ f ∈ countdown.functions, f.name = entryPoint ∧ ¬ f.IsAssembly := by
      simp [functions_countdown, countdownFunctions, entryPoint, FunctionDef.IsAssembly]
    have hglobals : ∀ f ∈ countdown.functions, countdown.Reachable f.name → ¬ f.IsAssembly →
        f.name ≠ globalsSection := by
      simp [functions_countdown, countdownFunctions, globalsSection]
    obtain ⟨image, himage⟩ := (hlink items hitems).1.2 ⟨hentry, hglobals⟩
    exact ⟨items, image, rfl, himage⟩

end Program

end Firestorm
