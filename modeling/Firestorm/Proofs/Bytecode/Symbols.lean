import Firestorm.Proofs.Bytecode.Encoding
import Firestorm.Proofs.Bytecode.Linking
import Firestorm.Proofs.Bytecode.Sections

/-!
# The symbols of sections

The sections of a program define three kinds of symbol: the name of each section, its numbered
labels under the name of the section, and the globals. Words, a period and a dollar sign keep the
three apart. References lead to globals, to labels of the same section and to functions.

## Main results

* `Bytecode.symbolsOf_codeItems`, `Bytecode.reference_mem_codeItems`.
* `Bytecode.nodup_symbolsOf_sections`: sections with different names define no symbol twice.
-/

namespace Firestorm.Bytecode

variable {name sectionName : String} {k : Naming} {code : List CodeLine} {s : Section} {p : Program}
  {globals : List String} {defs : List GlobalDef}

/-! ### Kinds of symbol -/

theorem toList_sectionSymbol (sectionName label : String) :
    (sectionSymbol sectionName label).toList = sectionName.toList ++ '.' :: label.toList := by
  simp only [sectionSymbol, String.toList_append, List.append_assoc]
  rfl

theorem toList_globalSymbol (name : String) : (globalSymbol name).toList = '$' :: name.toList := by
  simp only [globalSymbol, String.toList_append]
  rfl

theorem period_notMem_of_isWord (h : IsWord name) : '.' ∉ name.toList :=
  fun hmem => absurd (h.isWordPart _ hmem) (by decide)

/-- A word is neither a label of a section nor a global. -/
theorem ne_sectionSymbol_of_isWord (h : IsWord name) (sectionName label : String) :
    name ≠ sectionSymbol sectionName label := by
  rintro rfl
  refine period_notMem_of_isWord h ?_
  rw [toList_sectionSymbol]
  simp

theorem ne_globalSymbol_of_isWord (h : IsWord name) (other : String) :
    name ≠ globalSymbol other := by
  rintro rfl
  have := h.isWordPart '$' (by rw [toList_globalSymbol]; exact List.mem_cons_self ..)
  revert this
  decide

theorem globalSymbol_ne_sectionSymbol (h : IsWord sectionName) (label : String) :
    globalSymbol name ≠ sectionSymbol sectionName label := by
  intro heq
  have hlist := congrArg String.toList heq
  obtain ⟨c, cs, hcons, hc, -⟩ := h
  rw [toList_globalSymbol, toList_sectionSymbol, hcons, List.cons_append] at hlist
  obtain ⟨rfl, -⟩ := List.cons.inj hlist
  revert hc
  decide

theorem globalSymbol_injective : Function.Injective globalSymbol := by
  intro name other h
  have hlist := congrArg String.toList h
  rw [toList_globalSymbol, toList_globalSymbol] at hlist
  exact String.toList_inj.1 (List.cons.inj hlist).2

theorem append_cons_inj {α : Type} {a : α} {xs ys xs' ys' : List α} (hx : a ∉ xs) (hx' : a ∉ xs')
    (h : xs ++ a :: ys = xs' ++ a :: ys') : xs = xs' ∧ ys = ys' := by
  induction xs generalizing xs' with
  | nil =>
    cases xs' with
    | nil => exact ⟨rfl, (List.cons.inj h).2⟩
    | cons x xs' =>
      obtain ⟨rfl, -⟩ := List.cons.inj h
      exact absurd (List.mem_cons_self ..) hx'
  | cons x xs ih =>
    cases xs' with
    | nil =>
      obtain ⟨rfl, -⟩ := List.cons.inj h
      exact absurd (List.mem_cons_self ..) hx
    | cons x' xs' =>
      obtain ⟨rfl, htail⟩ := List.cons.inj h
      obtain ⟨rfl, rfl⟩ := ih (fun hmem => hx (List.mem_cons_of_mem _ hmem))
        (fun hmem => hx' (List.mem_cons_of_mem _ hmem)) htail
      exact ⟨rfl, rfl⟩

/-- A label of a section tells the section and the label. -/
theorem sectionSymbol_inj {sectionName' label label' : String} (h : IsWord sectionName)
    (h' : IsWord sectionName')
    (heq : sectionSymbol sectionName label = sectionSymbol sectionName' label') :
    sectionName = sectionName' ∧ label = label' := by
  have hlist := congrArg String.toList heq
  rw [toList_sectionSymbol, toList_sectionSymbol] at hlist
  obtain ⟨hname, hlabel⟩ :=
    append_cons_inj (period_notMem_of_isWord h) (period_notMem_of_isWord h') hlist
  exact ⟨String.toList_inj.1 hname, String.toList_inj.1 hlabel⟩

/-! ### Symbols and references of code -/

/-- Code that declares no global. -/
def NoGlobals (code : List CodeLine) : Prop :=
  ∀ b, .instruction (.global b) ∉ code

theorem symbolsOf_declarationItems (slot : Nat) (kind : Kind) (array : Bool) :
    symbolsOf (declarationItems slot kind array) = [] := rfl

theorem symbolsOf_lineItems {line : CodeLine} (h : ∀ b, line ≠ .instruction (.global b)) :
    symbolsOf (k.lineItems sectionName line) =
      ((label? line).map fun name => labelSymbol sectionName name.toList).toList := by
  cases line with
  | label name => rfl
  | instruction i =>
    cases i with
    | global b => exact absurd rfl (h b)
    | access a name =>
      simp only [Naming.lineItems, Naming.operandItems]
      split <;> rfl
    | _ => rfl

/-- Code that declares no global defines its labels. -/
theorem symbolsOf_codeItems (h : NoGlobals code) : symbolsOf (k.codeItems sectionName code) =
      (labelsOf code).map fun name => labelSymbol sectionName name.toList := by
  induction code generalizing k with
  | nil => rfl
  | cons line code ih =>
    have hline : ∀ b, line ≠ .instruction (.global b) :=
      fun b hb => h b (hb ▸ List.mem_cons_self ..)
    have hcode : NoGlobals code := fun b hb => h b (List.mem_cons_of_mem _ hb)
    rw [Naming.codeItems, symbolsOf_append, symbolsOf_lineItems hline, ih hcode]
    cases line <;> rfl

variable {N : Names}

/-- What code whose names are in scope refers to. -/
theorem reference_mem_codeItems {symbol : String} (hfits : k.CodeFits N code)
    (h : .reference symbol ∈ k.codeItems sectionName code) :
    (∃ name d, N.globals.get? name = some d ∧ symbol = globalSymbol name) ∨
      (∃ label ∈ targetsOf code, symbol = sectionSymbol sectionName label) ∨
      symbol ∈ invokes code := by
  induction code generalizing k with
  | nil => cases h
  | cons line code ih =>
    obtain ⟨hline, hcode⟩ := hfits
    rw [Naming.codeItems, List.mem_append] at h
    rcases h with h | h
    · cases line with
      | label name => simp [Naming.lineItems] at h
      | instruction i =>
        cases i with
        | global b =>
          simp only [Naming.lineItems, Naming.operandItems, List.mem_cons, reduceCtorEq, false_or,
            List.mem_append] at h
          split at h <;> simp [declarationItems] at h
        | access a name =>
          simp only [Naming.lineItems, Naming.operandItems, List.mem_cons, reduceCtorEq, false_or,
            List.not_mem_nil, or_false] at h
          split at h
          · cases h
          · next hlocal =>
            cases h
            obtain ⟨d, hd⟩ := hline.resolve_left hlocal
            exact .inl ⟨name, d, hd, rfl⟩
        | jump kind label =>
          simp only [Naming.lineItems, Naming.operandItems, List.mem_cons, reduceCtorEq, false_or,
            List.not_mem_nil, or_false, Item.reference.injEq] at h
          exact .inr (.inl ⟨label, List.mem_filterMap.2 ⟨_, List.mem_cons_self .., rfl⟩, h⟩)
        | invoke callee =>
          simp only [Naming.lineItems, Naming.operandItems, List.mem_cons, reduceCtorEq, false_or,
            List.not_mem_nil, or_false, Item.reference.injEq] at h
          rw [h]
          exact .inr (.inr (mem_invokes.2 (List.mem_cons_self ..)))
        | _ => simp [Naming.lineItems, Naming.operandItems, declarationItems] at h
    · rcases ih hcode h with hglobal | ⟨label, hlabel, hsymbol⟩ | hinvoke
      · exact .inl hglobal
      · refine .inr (.inl ⟨label, ?_, hsymbol⟩)
        rw [targetsOf_cons]
        exact List.mem_append_right _ hlabel
      · refine .inr (.inr ?_)
        rw [invokes_cons]
        exact List.mem_append_right _ hinvoke

/-! ### Well-formed sections -/

/-- The globals and the functions are named by words. -/
structure Names.Worded (N : Names) : Prop where
  globals : ∀ name d, N.globals.get? name = some d → IsWord name
  functions : ∀ name f, N.functions.get? name = some f → IsWord name

/-- A section that can be read back, whose labels are different numbers, whose jumps lead to its
labels, and which otherwise refers to globals and to functions only. -/
structure WellFormed (N : Names) (s : Section) : Prop where
  readable : SectionReadable s
  labels : ∃ ms : List Nat, labelsOf s.code = ms.map toString ∧ ms.Nodup
  targets : ∀ label, label ∈ targetsOf s.code ↔ label ∈ labelsOf s.code
  references : ∀ globals symbol, .reference symbol ∈ sectionItems globals s →
    (∃ name d, N.globals.get? name = some d ∧ symbol = globalSymbol name) ∨
      (∃ label ∈ labelsOf s.code, symbol = sectionSymbol s.name label) ∨ symbol ∈ invokes s.code

theorem isWord_of_named (hN : N.Worded) {scope : List String} (hscope : ∀ name ∈ scope, IsWord name)
    (h : Named N scope name) : IsWord name := by
  rcases h with h | ⟨d, hd⟩
  · exact hscope name h
  · exact hN.globals name d hd

theorem isWord_of_isNative (hN : N.Worded) (h : isNative N.functions name = true) :
    IsWord name := by
  cases hf : N.functions.get? name with
  | none => simp [isNative, hf] at h
  | some f => exact hN.functions name f hf

theorem readable_of_codeFits (hN : N.Worded) (hlocals : ∀ name ∈ k.locals, IsWord name)
    (hfits : k.CodeFits N code) (hdeclared : ∀ b ∈ declaredOf code, IsWord b.name)
    (hlabels : ∀ label ∈ labelsOf code, ∃ n : Nat, label = toString n)
    (htargets : ∀ label ∈ targetsOf code, ∃ n : Nat, label = toString n) :
    ∀ line ∈ code, Readable line := by
  induction code generalizing k with
  | nil => simp
  | cons line code ih =>
    obtain ⟨hline, hcode⟩ := hfits
    simp only [declaredOf_cons, List.forall_mem_append] at hdeclared
    simp only [targetsOf_cons, List.forall_mem_append] at htargets
    refine List.forall_mem_cons.2 ⟨?_, ih ?_ hcode hdeclared.2 ?_ htargets.2⟩
    · cases line with
      | label name => exact hlabels name (List.mem_cons_self ..)
      | instruction i =>
        cases i with
        | global b | variable_ b => exact hdeclared.1 b (by simp [declared?])
        | access a name => exact isWord_of_named hN hlocals hline
        | jump kind label => exact htargets.1 label (by simp [target?])
        | invoke callee =>
          obtain ⟨-, f, hf⟩ := hline
          exact hN.functions callee f hf
        | invokeNative callee => exact isWord_of_isNative hN hline
        | number value => trivial
        | string content => trivial
        | plain op => trivial
    · cases line with
      | label name => exact hlocals
      | instruction i =>
        cases i with
        | variable_ b =>
          intro name hname
          rcases mem_insertName.1 hname with hname | rfl
          · exact hlocals name hname
          · exact hdeclared.1 b (by simp [declared?])
        | _ => exact hlocals
    · cases line with
      | label name => exact fun label hlabel => hlabels label (List.mem_cons_of_mem _ hlabel)
      | instruction i => exact hlabels

theorem wellFormed_of_codeFits (hN : N.Worded) (hname : IsWord s.name)
    (hfits : ∀ globals, Naming.CodeFits N ⟨globals, []⟩ s.code)
    (hdeclared : ∀ b ∈ declaredOf s.code, IsWord b.name)
    (hlabels : ∃ ms : List Nat, labelsOf s.code = ms.map toString ∧ ms.Nodup)
    (htargets : ∀ label, label ∈ targetsOf s.code ↔ label ∈ labelsOf s.code) : WellFormed N s := by
  obtain ⟨ms, hms, -⟩ := id hlabels
  have hnumbers : ∀ label ∈ labelsOf s.code, ∃ n : Nat, label = toString n := by
    intro label hlabel
    rw [hms] at hlabel
    obtain ⟨n, -, rfl⟩ := List.mem_map.1 hlabel
    exact ⟨n, rfl⟩
  refine ⟨⟨hname, ?_⟩, hlabels, htargets, fun globals symbol h => ?_⟩
  · exact readable_of_codeFits hN (by simp) (hfits []) hdeclared hnumbers
      fun label hlabel => hnumbers label ((htargets label).1 hlabel)
  · rcases reference_mem_codeItems (hfits globals) (by simpa [sectionItems] using h) with
      h | ⟨label, hlabel, h⟩ | h
    · exact .inl h
    · exact .inr (.inl ⟨label, (htargets label).1 hlabel, h⟩)
    · exact .inr (.inr h)

/-! ### Symbols of sections -/

/-- The labels of a section are numbers of 32 bits. -/
def ShortLabels (s : Section) : Prop :=
  ∀ n : Nat, .label (toString n) ∈ s.code → n ≤ 0xffffffff

/-- The name of a section and its labels. -/
def sectionSymbols (s : Section) : List String :=
  s.name :: (labelsOf s.code).map (sectionSymbol s.name)

theorem symbolsOf_sectionItems_of_noGlobals (h : NoGlobals s.code) (globals : List String) :
    symbolsOf (sectionItems globals s) =
      s.name :: (labelsOf s.code).map fun name => labelSymbol s.name name.toList := by
  rw [← symbolsOf_codeItems h]
  rfl

theorem symbolsOf_sectionItems (hs : WellFormed N s) (hshort : ShortLabels s)
    (hglobals : NoGlobals s.code) (globals : List String) :
    symbolsOf (sectionItems globals s) = sectionSymbols s := by
  have hlabels : ((labelsOf s.code).map fun name => labelSymbol s.name name.toList) =
      (labelsOf s.code).map (sectionSymbol s.name) := by
    refine List.map_congr_left fun label hlabel => ?_
    obtain ⟨ms, hms, -⟩ := hs.labels
    obtain ⟨n, -, rfl⟩ := List.mem_map.1 (hms ▸ hlabel)
    rw [labelSymbol_toString, if_pos (hshort n (mem_labelsOf.1 hlabel))]
  rw [symbolsOf_sectionItems_of_noGlobals hglobals, hlabels, sectionSymbols]

theorem globals_through (h : NoGlobals code) (k : Naming) :
    (k.through code).globals = k.globals := by
  induction code generalizing k with
  | nil => rfl
  | cons line code ih =>
    rw [Naming.through_cons, ih fun b hb => h b (List.mem_cons_of_mem _ hb)]
    cases line with
    | label name => rfl
    | instruction i =>
      cases i with
      | global b => exact absurd (List.mem_cons_self ..) (h b)
      | _ => rfl

theorem globals_subset_through (k : Naming) (code : List CodeLine) :
    k.globals ⊆ (k.through code).globals := by
  induction code generalizing k with
  | nil => simp
  | cons line code ih =>
    refine List.Subset.trans ?_ (ih (k.after line))
    cases line with
    | label name => simp [Naming.after]
    | instruction i =>
      cases i with
      | global b => exact fun name hname => mem_insertName.2 (.inl hname)
      | _ => simp [Naming.after]

theorem noGlobals_of_through (h : (k.through code).globals = []) : NoGlobals code := by
  induction code generalizing k with
  | nil => exact fun _ hb => by cases hb
  | cons line code ih =>
    rw [Naming.through_cons] at h
    refine fun b hb => ?_
    rcases List.mem_cons.1 hb with rfl | hb
    · have hmem : b.name ∈ ((k.after (.instruction (.global b))).through code).globals :=
        globals_subset_through _ code (mem_insertName.2 (.inr rfl))
      rw [h] at hmem
      cases hmem
    · exact ih h b hb

/-- Sections that declare no global share the globals declared before them. -/
theorem sectionsItems_of_noGlobals {sections : List Section}
    (h : ∀ s ∈ sections, NoGlobals s.code) (globals : List String) :
    sectionsItems globals sections = sections.flatMap (sectionItems globals) := by
  induction sections with
  | nil => rfl
  | cons s sections ih =>
    obtain ⟨hs, hsections⟩ := List.forall_mem_cons.1 h
    rw [sectionsItems, globalsThrough, globals_through hs, ih hsections, List.flatMap_cons]

theorem toString_injective : Function.Injective (toString : Nat → String) := by
  intro m n h
  have hm := Text.Decimal.readNat_toString (m + n) m
  rw [h, Text.Decimal.readNat_toString (m + n) n, if_pos (by omega), if_pos (by omega)] at hm
  exact (Except.ok.inj hm).symm

theorem nodup_sectionSymbols (hs : WellFormed N s) : (sectionSymbols s).Nodup := by
  obtain ⟨ms, hms, hnodup⟩ := hs.labels
  refine List.nodup_cons.2 ⟨?_, ?_⟩
  · intro hmem
    obtain ⟨label, -, hlabel⟩ := List.mem_map.1 hmem
    exact ne_sectionSymbol_of_isWord hs.readable.name _ _ hlabel.symm
  · refine List.Nodup.map (fun _ _ h =>
      (sectionSymbol_inj hs.readable.name hs.readable.name h).2) ?_
    rw [hms]
    exact hnodup.map toString_injective

theorem disjoint_sectionSymbols {s' : Section} (hs : IsWord s.name) (hs' : IsWord s'.name)
    (hne : s.name ≠ s'.name) : (sectionSymbols s).Disjoint (sectionSymbols s') := by
  intro symbol hsymbol hsymbol'
  rcases List.mem_cons.1 hsymbol with rfl | hlabel
  · rcases List.mem_cons.1 hsymbol' with hname | hlabel'
    · exact hne hname
    · obtain ⟨label, -, hlabel'⟩ := List.mem_map.1 hlabel'
      exact ne_sectionSymbol_of_isWord hs _ _ hlabel'.symm
  · obtain ⟨label, -, rfl⟩ := List.mem_map.1 hlabel
    rcases List.mem_cons.1 hsymbol' with hname | hlabel'
    · exact ne_sectionSymbol_of_isWord hs' _ _ hname.symm
    · obtain ⟨label', -, hlabel'⟩ := List.mem_map.1 hlabel'
      exact hne (sectionSymbol_inj hs' hs hlabel').1.symm

/-- Sections with different names define no symbol twice. -/
theorem nodup_sectionsSymbols {sections : List Section} (hs : ∀ s ∈ sections, WellFormed N s)
    (hnames : (sections.map (·.name)).Nodup) : (sections.flatMap sectionSymbols).Nodup := by
  refine List.nodup_flatMap.2 ⟨fun s hmem => nodup_sectionSymbols (hs s hmem), ?_⟩
  refine List.Pairwise.imp_of_mem ?_ (List.pairwise_map.1 hnames)
  exact fun hmem hmem' hne =>
    disjoint_sectionSymbols (hs _ hmem).readable.name (hs _ hmem').readable.name hne

/-! ### The section of the globals -/

theorem mem_firstDefinitions {seen : List String} {gs : List GlobalDef} :
    name ∈ (firstDefinitions seen gs).map (·.binding.name) ↔
      name ∈ gs.map (·.binding.name) ∧ name ∉ seen := by
  induction gs generalizing seen with
  | nil => simp [firstDefinitions]
  | cons g gs ih =>
    rw [firstDefinitions]
    split
    · next hseen =>
      rw [ih]
      simp only [List.map_cons, List.mem_cons]
      constructor
      · exact fun h => ⟨.inr h.1, h.2⟩
      · rintro ⟨rfl | h, hnew⟩
        · exact absurd hseen hnew
        · exact ⟨h, hnew⟩
    · next hnew =>
      simp only [List.map_cons, List.mem_cons, ih, not_or]
      grind

theorem nodup_firstDefinitions (seen : List String) (gs : List GlobalDef) :
    ((firstDefinitions seen gs).map (·.binding.name)).Nodup := by
  induction gs generalizing seen with
  | nil => exact List.nodup_nil
  | cons g gs ih =>
    rw [firstDefinitions]
    split
    · exact ih seen
    · refine List.nodup_cons.2 ⟨fun hmem => ?_, ih _⟩
      exact (mem_firstDefinitions.1 hmem).2 (List.mem_cons_self ..)

theorem firstDefinitions_subset (seen : List String) (gs : List GlobalDef) :
    firstDefinitions seen gs ⊆ gs := by
  induction gs generalizing seen with
  | nil => simp [firstDefinitions]
  | cons g gs ih =>
    rw [firstDefinitions]
    split
    · exact fun _ h => List.mem_cons_of_mem _ (ih seen h)
    · exact List.cons_subset_cons _ (ih _)

/-- The names of the globals of a program, each once. -/
def globalNames (p : Program) : List String :=
  (firstDefinitions [] p.globals).map (·.binding.name)

theorem mem_globalNames : name ∈ globalNames p ↔ ∃ g ∈ p.globals, g.binding.name = name := by
  rw [globalNames, mem_firstDefinitions, List.mem_map]
  simp

theorem through_emitGlobal {g : GlobalDef} (hnew : g.binding.name ∉ globals) :
    Naming.through ⟨globals, []⟩ (emitGlobal g) = ⟨globals ++ [g.binding.name], []⟩ := by
  unfold emitGlobal
  split <;> simp [insertName, hnew]

theorem through_emitGlobals (h : (globals ++ defs.map (·.binding.name)).Nodup) :
    Naming.through ⟨globals, []⟩ (defs.flatMap emitGlobal) =
      ⟨globals ++ defs.map (·.binding.name), []⟩ := by
  induction defs generalizing globals with
  | nil => simp
  | cons g defs ih =>
    have hnew : g.binding.name ∉ globals := fun hmem =>
      (List.nodup_append.1 h).2.2 _ hmem _ (List.mem_cons_self ..) rfl
    rw [List.flatMap_cons, Naming.through_append, through_emitGlobal hnew, ih (by simpa using h)]
    simp

theorem symbolsOf_emitGlobal {g : GlobalDef} (sectionName : String)
    (hnew : g.binding.name ∉ globals) :
    symbolsOf (Naming.codeItems sectionName ⟨globals, []⟩ (emitGlobal g)) =
      [globalSymbol g.binding.name] := by
  have hline : symbolsOf (Naming.lineItems ⟨globals, []⟩ sectionName
      (.instruction (.global g.binding))) = [globalSymbol g.binding.name] := by
    simp [Naming.lineItems, Naming.operandItems, hnew, Item.symbol?, symbolsOf_declarationItems]
  rw [emitGlobal, Naming.codeItems, symbolsOf_append, hline]
  cases g.init with
  | none => rfl
  | some l =>
    have hno : NoGlobals [literal l, access .assign g.binding.name] := by
      cases l <;> simp [NoGlobals, literal, access, number]
    rw [symbolsOf_codeItems hno]
    cases l <;> rfl

theorem symbolsOf_emitGlobals (sectionName : String)
    (h : (globals ++ defs.map (·.binding.name)).Nodup) :
    symbolsOf (Naming.codeItems sectionName ⟨globals, []⟩ (defs.flatMap emitGlobal)) =
      (defs.map (·.binding.name)).map globalSymbol := by
  induction defs generalizing globals with
  | nil => rfl
  | cons g defs ih =>
    have hnew : g.binding.name ∉ globals := fun hmem =>
      (List.nodup_append.1 h).2.2 _ hmem _ (List.mem_cons_self ..) rfl
    rw [List.flatMap_cons, Naming.codeItems_append, symbolsOf_append, symbolsOf_emitGlobal _ hnew,
      through_emitGlobal hnew, ih (by simpa using h)]
    rfl

theorem codeFits_emitGlobals (h : ∀ g ∈ defs, ∃ d, N.globals.get? g.binding.name = some d) :
    k.CodeFits N (defs.flatMap emitGlobal) := by
  induction defs generalizing k with
  | nil => trivial
  | cons g defs ih =>
    obtain ⟨hg, hdefs⟩ := List.forall_mem_cons.1 h
    refine Naming.codeFits_append.2 ⟨?_, ih hdefs⟩
    refine ⟨trivial, ?_⟩
    cases g.init with
    | none => trivial
    | some l => exact ⟨Naming.fits_literal .., .inr hg, trivial⟩

/-- The section of the globals declares them, gives them values and returns. -/
theorem cases_of_mem_globalsCode {line : CodeLine} (h : line ∈ (globalsCode p).code) :
    (∃ g ∈ p.globals, line = .instruction (.global g.binding)) ∨ (∃ l, line = literal l) ∨
      (∃ name, line = access .assign name) ∨ line = plain .return_ := by
  simp only [globalsCode, List.mem_append, List.mem_flatMap, List.mem_cons, List.not_mem_nil,
    or_false] at h
  rcases h with ⟨g, hg, h⟩ | rfl | rfl
  · rcases List.mem_cons.1 h with rfl | h
    · exact .inl ⟨g, firstDefinitions_subset _ _ hg, rfl⟩
    · cases hinit : g.init with
      | none => simp [hinit] at h
      | some l =>
        simp only [hinit, List.mem_cons, List.not_mem_nil, or_false] at h
        rcases h with rfl | rfl
        · exact .inr (.inl ⟨l, rfl⟩)
        · exact .inr (.inr (.inl ⟨_, rfl⟩))
  · exact .inr (.inl ⟨.number 0, rfl⟩)
  · exact .inr (.inr (.inr rfl))

theorem filterMap_globalsCode {α : Type} {f : CodeLine → Option α} (p : Program)
    (hglobal : ∀ b, f (.instruction (.global b)) = none) (hliteral : ∀ l, f (literal l) = none)
    (haccess : ∀ name, f (access .assign name) = none) (hreturn : f (plain .return_) = none) :
    (globalsCode p).code.filterMap f = [] := by
  refine List.filterMap_eq_nil_iff.2 fun line hline => ?_
  rcases cases_of_mem_globalsCode hline with ⟨g, -, rfl⟩ | ⟨l, rfl⟩ | ⟨name, rfl⟩ | rfl
  · exact hglobal _
  · exact hliteral l
  · exact haccess name
  · exact hreturn

@[simp] theorem labelsOf_globalsCode (p : Program) : labelsOf (globalsCode p).code = [] :=
  filterMap_globalsCode p (fun _ => rfl) (by rintro (_ | _ | _) <;> rfl) (fun _ => rfl) rfl

@[simp] theorem targetsOf_globalsCode (p : Program) : targetsOf (globalsCode p).code = [] :=
  filterMap_globalsCode p (fun _ => rfl) (by rintro (_ | _ | _) <;> rfl) (fun _ => rfl) rfl

@[simp] theorem invokes_globalsCode (p : Program) : invokes (globalsCode p).code = [] :=
  filterMap_globalsCode p (fun _ => rfl) (by rintro (_ | _ | _) <;> rfl) (fun _ => rfl) rfl

@[simp] theorem callsOf_globalsCode (p : Program) : callsOf (globalsCode p).code = [] :=
  filterMap_globalsCode p (fun _ => rfl) (by rintro (_ | _ | _) <;> rfl) (fun _ => rfl) rfl

theorem isWord_globalsSection : IsWord globalsSection := by decide

/-- The section of the globals is well formed. -/
theorem wellFormed_globalsCode (hN : N.Worded)
    (h : ∀ g ∈ p.globals, ∃ d, N.globals.get? g.binding.name = some d) :
    WellFormed N (globalsCode p) := by
  have hdefs : ∀ g ∈ firstDefinitions [] p.globals, ∃ d, N.globals.get? g.binding.name = some d :=
    fun g hg => h g (firstDefinitions_subset _ _ hg)
  refine wellFormed_of_codeFits hN isWord_globalsSection (fun globals => ?_) ?_
    ⟨[], labelsOf_globalsCode p, List.nodup_nil⟩ (by simp)
  · simp [globalsCode, codeFits_emitGlobals hdefs, number, plain, Naming.Fits]
  · intro b hb
    obtain ⟨line, hline, hdeclared⟩ := List.mem_filterMap.1 hb
    rcases cases_of_mem_globalsCode hline with ⟨g, hg, rfl⟩ | ⟨l, rfl⟩ | ⟨name, rfl⟩ | rfl
    · cases hdeclared
      obtain ⟨d, hd⟩ := h g hg
      exact hN.globals _ d hd
    · cases l <;> cases hdeclared
    · cases hdeclared
    · cases hdeclared

theorem globalsThrough_globalsCode (p : Program) :
    globalsThrough [] (globalsCode p) = globalNames p := by
  rw [globalsThrough, globalsCode, Naming.through_append,
    through_emitGlobals (by simpa using nodup_firstDefinitions [] p.globals)]
  rfl

theorem symbolsOf_globalsCode (p : Program) : symbolsOf (sectionItems [] (globalsCode p)) =
    globalsSection :: (globalNames p).map globalSymbol := by
  have hnodup : ([] ++ globalNames p).Nodup := nodup_firstDefinitions [] p.globals
  rw [sectionItems, globalsCode, Naming.codeItems_append, symbolsOf_cons, symbolsOf_append,
    symbolsOf_emitGlobals _ hnodup]
  simp [Item.symbol?, Naming.codeItems, number, plain, Naming.lineItems, Naming.operandItems,
    globalNames]

end Firestorm.Bytecode
