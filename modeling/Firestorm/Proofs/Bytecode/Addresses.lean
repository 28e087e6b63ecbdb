import Firestorm.Proofs.Bytecode.Decoding
import Firestorm.Proofs.Bytecode.Linkage

/-!
# Addresses in linked programs

In the image of a program that has been linked, the symbol of every section leads to its code, the
symbol of every label to the code behind it, and the symbol of every global is the number of the
global.

## Main definitions

* `Bytecode.codeBytes`, `Bytecode.SectionAt`, `Program.Linked`.

## Main results

* `Program.Compiled.linked`.
-/

namespace Firestorm

variable {image : List UInt8}

namespace Bytecode

open StackMachine

/-- The bytes of code in a linked image. -/
def codeBytes (symbols : SymbolValues) (sectionName : String) (k : Naming) (code : List CodeLine) :
    List UInt8 :=
  itemBytes symbols (k.codeItems sectionName code)

/-- A section lies in an image, followed by the given bytes. -/
structure SectionAt (image : List UInt8) (symbols : SymbolValues) (globals : List String)
    (s : Section) (tail : List UInt8) : Prop where
  entry : ∃ address, symbols.get? s.name = some address ∧
    image.drop address.toNat = codeBytes symbols s.name ⟨globals, []⟩ s.code ++ tail
  label : ∀ before n after, s.code = before ++ numbered n :: after →
    ∃ address, symbols.get? (sectionSymbol s.name (toString n)) = some address ∧
      image.drop address.toNat =
        codeBytes symbols s.name (Naming.through ⟨globals, []⟩ before) after ++ tail

section

variable {symbols : SymbolValues} {items before after : List Item} {image : List UInt8}
  {globals : List String} {s : Section}

theorem sectionAt_of_items
    (hsymbols : ∀ name value, Defines 0 items name value → symbols.get? name = some value)
    (himage : image = itemBytes symbols items) (hlength : image.length < 2 ^ 64)
    (hitems : items = before ++ (sectionItems globals s ++ after)) (hshort : ShortLabels s) :
    SectionAt image symbols globals s (itemBytes symbols after) where
  entry := by
    have hsplit : items = before ++
        .label s.name :: (Naming.codeItems s.name ⟨globals, []⟩ s.code ++ after) := hitems
    obtain ⟨address, haddress, hdrop⟩ := drop_of_label symbols hsymbols himage hlength hsplit
    exact ⟨address, haddress, by rw [hdrop, itemBytes_append]; rfl⟩
  label := by
    intro first n last hcode
    have hlabel : labelSymbol s.name (toString n).toList = sectionSymbol s.name (toString n) := by
      rw [labelSymbol_toString, if_pos (hshort n (by rw [hcode]; simp [numbered]))]
    have hsplit : items = (before ++
        (.label s.name :: Naming.codeItems s.name ⟨globals, []⟩ first)) ++
        .label (sectionSymbol s.name (toString n)) ::
          (Naming.codeItems s.name (Naming.through ⟨globals, []⟩ first) last ++ after) := by
      rw [hitems, sectionItems, hcode, Naming.codeItems_append, Naming.codeItems,
        Naming.after_numbered, numbered, Naming.lineItems, hlabel]
      simp
    obtain ⟨address, haddress, hdrop⟩ := drop_of_label symbols hsymbols himage hlength hsplit
    exact ⟨address, haddress, by rw [hdrop, itemBytes_append]; rfl⟩

end

/-! ### Lengths -/

theorem codeBytes_append (symbols : SymbolValues) (sectionName : String) (k : Naming)
    (code more : List CodeLine) :
    codeBytes symbols sectionName k (code ++ more) =
      codeBytes symbols sectionName k code ++
      codeBytes symbols sectionName (k.through code) more := by
  rw [codeBytes, Naming.codeItems_append, itemBytes_append]
  rfl

theorem codeBytes_instruction (symbols : SymbolValues) (sectionName : String) (k : Naming)
    (i : Instruction) (more : List CodeLine) :
    codeBytes symbols sectionName k (.instruction i :: more) =
      itemBytes symbols (k.lineItems sectionName (.instruction i)) ++
        codeBytes symbols sectionName (k.after (.instruction i)) more := by
  rw [codeBytes, Naming.codeItems, itemBytes_append, codeBytes]

theorem SectionAt.length_le {symbols : SymbolValues} {globals : List String} {s : Section}
    {tail : List UInt8} (h : SectionAt image symbols globals s tail) :
    (codeBytes symbols s.name ⟨globals, []⟩ s.code).length ≤ image.length := by
  obtain ⟨address, -, hdrop⟩ := h.entry
  have hlength := congrArg List.length hdrop
  rw [List.length_drop, List.length_append] at hlength
  omega

theorem length_utf8_le (symbols : SymbolValues) (sectionName : String) (k : Naming)
    {code : List CodeLine} {content : String} (h : .instruction (.string content) ∈ code) :
    (Text.utf8 content.toList).length ≤ (codeBytes symbols sectionName k code).length := by
  obtain ⟨first, last, rfl⟩ := List.append_of_mem h
  rw [codeBytes_append, codeBytes_instruction]
  simp only [Naming.lineItems, Naming.operandItems, itemBytes_cons, itemBytes_nil, resolved_byte,
    resolved_quad, resolved_bytes, List.length_append]
  omega

/-- Each local that code declares takes space in the image. -/
theorem length_locals_through_le (symbols : SymbolValues) (sectionName : String) (k : Naming)
    (code : List CodeLine) :
    (k.through code).locals.length ≤
      k.locals.length + (codeBytes symbols sectionName k code).length := by
  induction code generalizing k with
  | nil => exact Nat.le_add_right ..
  | cons line code ih =>
    have hrest := ih (k.after line)
    have hline : (k.after line).locals.length ≤
        k.locals.length + (itemBytes symbols (k.lineItems sectionName line)).length := by
      unfold Naming.after
      split
      · exact Nat.le_add_right ..
      · simp only [Naming.lineItems, itemBytes_cons, resolved_byte, List.length_append,
          List.length_singleton, insertName]
        split
        · exact Nat.le_add_right ..
        · rw [List.length_append, List.length_singleton]
          omega
      · exact Nat.le_add_right ..
    rw [Naming.through_cons, codeBytes, Naming.codeItems, itemBytes_append, List.length_append]
    rw [codeBytes] at hrest
    omega

/-! ### Labels that are linked -/

theorem reference_of_target {sectionName label : String} {code : List CodeLine} (k : Naming)
    (h : label ∈ targetsOf code) :
    .reference (sectionSymbol sectionName label) ∈ k.codeItems sectionName code := by
  induction code generalizing k with
  | nil => cases h
  | cons line code ih =>
    rw [targetsOf_cons, List.mem_append, Option.mem_toList] at h
    rw [Naming.codeItems, List.mem_append]
    rcases h with h | h
    · left
      cases line with
      | label name => cases h
      | instruction i =>
        cases i with
        | jump kind target =>
          cases h
          simp [Naming.lineItems, Naming.operandItems]
        | _ => cases h
    · exact .inr (ih _ h)

theorem toString_ne_sectionSymbol (n : Nat) (sectionName label : String) :
    toString n ≠ sectionSymbol sectionName label := by
  intro h
  have hmem : '.' ∈ (toString n).toList := by
    rw [h, toList_sectionSymbol]
    simp
  have hdigit := isDigit_of_mem_toString hmem
  revert hdigit
  decide

/-- The symbol of a label is that of a label of 32 bits. -/
theorem le_of_labelSymbol_eq {sectionName sectionName' : String} {m n : Nat}
    (h : IsWord sectionName) (h' : IsWord sectionName')
    (heq : labelSymbol sectionName (toString m).toList = sectionSymbol sectionName' (toString n)) :
    n ≤ 0xffffffff := by
  rw [labelSymbol_toString] at heq
  split at heq
  · next hle => rwa [← toString_injective (sectionSymbol_inj h h' heq).2]
  · exact absurd heq (toString_ne_sectionSymbol m _ _)

end Bytecode

namespace Program.Compiled

open Bytecode

variable {p : Program} {N : Names} {kept : List Section}

/-- In sections that are linked every label is a number of 32 bits. -/
theorem shortLabels_of_link (hp : p.Worded) (h : p.Compiled N kept)
    (hlink : link (sectionsItems [] (globalsCode p :: (kept ++ trapSections N.functions))) =
      .ok image) :
    ∀ s ∈ kept ++ trapSections N.functions, ShortLabels s := by
  intro s hs n hn
  have hwf := (List.forall_mem_cons.1 (h.wellFormed_sections hp)).2
  have hword := (hwf s hs).readable.name
  have hreference : .reference (sectionSymbol s.name (toString n)) ∈ headerItems ++
      sectionsItems [] (globalsCode p :: (kept ++ trapSections N.functions)) := by
    rw [h.sectionsItems_eq]
    refine List.mem_append_right _ (List.mem_append_right _ (List.mem_flatMap.2 ⟨s, hs, ?_⟩))
    refine List.mem_cons_of_mem _ (reference_of_target _ ?_)
    exact ((hwf s hs).targets _).2 (mem_labelsOf.2 hn)
  have hsymbol := ((exists_link_eq_ok_iff _).1 ⟨image, hlink⟩).2 _ hreference
  rw [h.sectionsItems_eq, symbolsOf_append, symbolsOf_globalsCode, List.mem_append, List.mem_cons,
    symbolsOf, List.filterMap_flatMap, List.mem_flatMap] at hsymbol
  rcases hsymbol with (hsymbol | hsymbol) | ⟨s', hs', hsymbol⟩
  · exact absurd hsymbol.symm (ne_sectionSymbol_of_isWord isWord_globalsSection _ _)
  · obtain ⟨name, -, hname⟩ := List.mem_map.1 hsymbol
    exact absurd hname (globalSymbol_ne_sectionSymbol hword _)
  · have hword' := (hwf s' hs').readable.name
    change _ ∈ symbolsOf (sectionItems (globalNames p) s') at hsymbol
    rw [symbolsOf_sectionItems_of_noGlobals (h.noGlobals_sections s' hs')] at hsymbol
    rcases List.mem_cons.1 hsymbol with hname | hlabel
    · exact absurd hname.symm (ne_sectionSymbol_of_isWord hword' _ _)
    · obtain ⟨label, hmem, hlabel⟩ := List.mem_map.1 hlabel
      obtain ⟨ms, hms, -⟩ := (hwf s' hs').labels
      rw [hms] at hmem
      obtain ⟨m, -, rfl⟩ := List.mem_map.1 hmem
      exact le_of_labelSymbol_eq hword' hword hlabel

end Program.Compiled

namespace Bytecode

/-- Each global has its number as the value of its symbol. -/
theorem constant_mem_emitGlobals {defs : List GlobalDef} {globals : List String}
    (sectionName : String) (h : (globals ++ defs.map (·.binding.name)).Nodup) {name : String}
    (hname : name ∈ defs.map (·.binding.name)) :
    .constant (globalSymbol name) ((globals ++ defs.map (·.binding.name)).idxOf name).toUInt64 ∈
      Naming.codeItems sectionName ⟨globals, []⟩ (defs.flatMap emitGlobal) := by
  induction defs generalizing globals with
  | nil => cases hname
  | cons g defs ih =>
    have hnew : g.binding.name ∉ globals := fun hmem =>
      (List.nodup_append.1 h).2.2 _ hmem _ (List.mem_cons_self ..) rfl
    rw [List.flatMap_cons, Naming.codeItems_append, through_emitGlobal hnew, List.mem_append]
    rcases List.mem_cons.1 hname with rfl | hname
    · left
      rw [List.idxOf_append_of_notMem hnew]
      simp [emitGlobal, Naming.codeItems, Naming.lineItems, Naming.operandItems, hnew]
    · right
      have hrest : ((globals ++ [g.binding.name]) ++ defs.map (·.binding.name)).Nodup := by
        simpa using h
      simpa using ih hrest hname

end Bytecode

open Bytecode StackMachine

theorem Bytecode.defines_of_constant {items : List Bytecode.Item} {name : String} {value : UInt64}
    (position : Nat) (h : .constant name value ∈ items) : Defines position items name value := by
  obtain ⟨before, after, rfl⟩ := List.append_of_mem h
  exact ⟨before, _, after, rfl, rfl⟩

/-- What is known of the image of a program: its functions lie in it, and the header and the symbols
lead to them. -/
structure Program.Linked (p : Program) (N : Names) (symbols : SymbolValues) (image : List UInt8)
    (header : Header) : Prop where
  functions : ∀ f ∈ p.functions, p.Reachable f.name → ∀ body, f.body = .statements body →
    ∃ n tail, SectionAt image symbols (globalNames p) (functionSection N.functions f body n) tail
  initial : ∃ tail, SectionAt image symbols [] (globalsCode p) tail
  entryFunction : ∃ f ∈ p.functions, f.name = Program.entryPoint ∧ ¬ f.IsAssembly
  readHeader_eq : readHeader image = some header
  entryPoint_eq : symbols.get? Program.entryPoint = some header.entryPoint
  globals_eq : symbols.get? globalsSection = some header.globals
  slot_eq : ∀ name ∈ globalNames p,
    symbols.get? (globalSymbol name) = some (UInt64.ofNat ((globalNames p).idxOf name))

/-- A program that is linked has an entry point with statements. -/
theorem Program.Compiled.exists_entryPoint {p : Program} {N : Names} {kept : List Section}
    (hp : p.Worded) (h : p.Compiled N kept)
    (hlink : link (sectionsItems [] (globalsCode p :: (kept ++ trapSections N.functions))) =
      .ok image) :
    ∃ f ∈ p.functions, f.name = Program.entryPoint ∧ ¬ f.IsAssembly := by
  have hsymbols := h.symbolsOf_sections hp (h.shortLabels_of_link hp hlink)
  obtain ⟨hiff, -, -⟩ := link_of_symbols hsymbols (h.nodup_symbols hp) (by decide)
    (List.mem_append_left _ (by simp [headerItems])) fun symbol => h.reference_cases hp
  obtain ⟨hentry, -⟩ := hiff.1 ⟨image, hlink⟩
  rw [Program.Compiled.mem_symbols_iff _ isWord_entryPoint,
    h.mem_names_sections_iff (by decide)] at hentry
  obtain ⟨f, hf, -, hassembly, hname⟩ := hentry
  exact ⟨f, hf, hname, hassembly⟩

/-- A program that is linked lies in its image. -/
theorem Program.Compiled.linked {p : Program} {N : Names} {kept : List Section} (hp : p.Worded)
    (h : p.Compiled N kept) (hlength : image.length < 2 ^ 64)
    (hlink : link (sectionsItems [] (globalsCode p :: (kept ++ trapSections N.functions))) =
      .ok image) :
    ∃ symbols header, p.Linked N symbols image header := by
  have hshort := h.shortLabels_of_link hp hlink
  obtain ⟨symbols, himage, hresolved, hsymbols, -, -⟩ := link_eq_ok hlink
  rw [h.sectionsItems_eq] at himage hresolved hsymbols
  have hglobals : ([] ++ globalNames p).Nodup := nodup_firstDefinitions [] p.globals
  have hheader : ∀ name ∈ [Program.entryPoint, globalsSection, Program.unreachable],
      symbols.get? name = some ((symbols.get? name).getD 0) := by
    intro name hname
    obtain ⟨value, hvalue⟩ :=
      hresolved name (List.mem_append_left _ (by simpa [headerItems] using hname))
    rw [hvalue, Option.getD_some]
  refine ⟨symbols, ⟨(symbols.get? Program.entryPoint).getD 0, (symbols.get? globalsSection).getD 0,
    (symbols.get? Program.unreachable).getD 0⟩, ?_, ?_, h.exists_entryPoint hp hlink, ?_,
    hheader _ (by simp), hheader _ (by simp), ?_⟩
  · intro f hf hreachable body hbody
    obtain ⟨n, hn⟩ := h.exists_mem hf hreachable hbody
    have hmem := List.mem_append_left (trapSections N.functions) hn
    obtain ⟨before, after, hsplit⟩ := List.append_of_mem hmem
    have hlies : headerItems ++ (sectionItems [] (globalsCode p) ++
        (kept ++ trapSections N.functions).flatMap (sectionItems (globalNames p))) =
        headerItems ++ (sectionItems [] (globalsCode p) ++
          before.flatMap (sectionItems (globalNames p))) ++
            (sectionItems (globalNames p) (functionSection N.functions f body n) ++
              after.flatMap (sectionItems (globalNames p))) := by
      rw [hsplit]
      simp
    exact ⟨n, _, sectionAt_of_items hsymbols himage hlength hlies (hshort _ hmem)⟩
  · refine ⟨_, sectionAt_of_items hsymbols himage hlength rfl ?_⟩
    intro n hn
    have hlabel := mem_labelsOf.2 hn
    simp at hlabel
  · rw [himage]
    simp [readHeader, headerItems]
  · intro name hname
    have hconstant := constant_mem_emitGlobals globalsSection hglobals hname
    refine hsymbols _ _ (defines_of_constant _ ?_)
    refine List.mem_append_right _ (List.mem_append_left _ (List.mem_cons_of_mem _ ?_))
    rw [globalsCode, Naming.codeItems_append]
    exact List.mem_append_left _ hconstant

/-! ### Images of programs -/

namespace Program

variable {p : Program} {sections : List Section}

/-- The image of a program, if it can be compiled, encoded and linked. -/
def image? (p : Program) : Option (List UInt8) := do
  let sections ← p.toBytecode.toOption
  let items ← (encode (Section.renderAll sections)).toOption
  (link items).toOption

/-- A program whose assembly functions are those of the machine is encoded. -/
theorem encode_of_natives (hp : p.Worded) (hsections : p.toBytecode = .ok sections)
    (hnatives : ∀ f ∈ p.functions, f.IsAssembly → f.name ∈ natives) :
    encode (Section.renderAll sections) = .ok (sectionsItems [] sections) := by
  obtain ⟨N, kept, h, rfl⟩ := compiled_of_toBytecode hp hsections
  rcases h.encode_eq hp with ⟨hencode, -⟩ | ⟨_, name, -, f, -, -, g, hg, rfl, -, hassembly,
    hunknown⟩
  · exact hencode
  · exact absurd (hnatives g hg hassembly) hunknown

section

variable (hwords : ∀ f ∈ p.functions, IsWord f.name ∧ ∀ b ∈ f.locals, IsWord b.name)
  (hglobals : ∀ g ∈ p.globals, IsWord g.binding.name)
  (hassembly : ∀ f ∈ p.functions, f.attributes.assembly = false ∧ ¬ f.IsAssembly)
include hwords hglobals hassembly

theorem worded_of_statements : p.Worded := by
  refine ⟨fun f hf => ⟨(hwords f hf).1, (hwords f hf).2, ?_⟩, hglobals⟩
  simp [hassembly f hf]

/-- The image of a program without assembly functions is linked from the items of its sections. -/
theorem image?_of_statements : p.image? =
    p.toBytecode.toOption.bind fun sections => (link (sectionsItems [] sections)).toOption := by
  have hp := worded_of_statements hwords hglobals hassembly
  unfold image?
  cases hsections : p.toBytecode with
  | error e => rfl
  | ok sections =>
    simp only [Except.toOption, Option.bind_eq_bind, Option.bind_some,
      encode_of_natives hp hsections fun f hf h => absurd h (hassembly f hf).2]

end

end Program

end Firestorm
