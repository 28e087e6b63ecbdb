import Mathlib.Data.List.Perm.Basic
import Firestorm.Proofs.Native.Units
import Firestorm.Proofs.Program.Words

/-!
# Labels that are defined once

The labels of native code come from the names of functions, from numbers inside functions, from the
names of globals and from the pool of strings. Only functions that are retained have code, and still
every label that is used is defined. The labels inside functions start with a period and the labels
of data with two underscores, so that a label is defined once unless a function has the name of a
label of data.

## Main results

* `Native.Assembled.defined_perm`, `Native.Assembled.mem_defined_of_mem_used`.
* `Program.labelClosed_of_toAssembly`: the labels and the strings of the native code of a text.
-/

namespace Firestorm

namespace Native

variable {name label : String}

/-! ### Kinds of labels -/

theorem ne_of_head?_ne {s t : String} (h : s.toList.head? ≠ t.toList.head?) : s ≠ t := by
  rintro rfl
  exact h rfl

theorem head?_inner (s : String) : (".L" ++ s).toList.head? = some '.' := by
  rw [String.toList_append]
  rfl

theorem head?_globalLabel (name : String) : (globalLabel name).toList.head? = some '_' := by
  rw [globalLabel, String.toList_append]
  rfl

theorem stringLabel_eq (k : Nat) : stringLabel k = "__string_" ++ toString k := rfl

theorem head?_stringLabel (k : Nat) : (stringLabel k).toList.head? = some '_' := by
  rw [stringLabel_eq, String.toList_append]
  rfl

theorem stringLabel_injective : Function.Injective stringLabel := fun k k' h => by
  rw [stringLabel_eq, stringLabel_eq] at h
  exact Bytecode.toString_injective (append_left_injective _ h)

theorem globalLabel_ne_stringLabel (name : String) (k : Nat) :
    globalLabel name ≠ stringLabel k := by
  intro h
  have hlist := congrArg (fun s => (String.toList s)[2]?) h
  simp only [globalLabel, stringLabel_eq, String.toList_append] at hlist
  exact absurd hlist (by simp)

theorem ne_inner_of_isWord (h : IsWord name) (s : String) : name ≠ ".L" ++ s := by
  rintro rfl
  refine Bytecode.period_notMem_of_isWord h ?_
  rw [String.toList_append]
  exact List.mem_append_left _ (by decide)

/-- The labels of the data of a program. -/
def dataLabels (p : Program) (pool : List String) : List String :=
  (Bytecode.globalNames p).map globalLabel ++ (List.range pool.length).map stringLabel

theorem mem_dataLabels_iff {p : Program} {pool : List String} :
    label ∈ dataLabels p pool ↔ (∃ g ∈ p.globals, label = globalLabel g.binding.name) ∨
      ∃ k < pool.length, label = stringLabel k := by
  simp only [dataLabels, List.mem_append, List.mem_map, List.mem_range, Bytecode.mem_globalNames]
  grind

theorem nodup_dataLabels (p : Program) (pool : List String) : (dataLabels p pool).Nodup := by
  refine List.nodup_append.2 ⟨(Bytecode.nodup_firstDefinitions ..).map globalLabel_injective,
    List.nodup_range.map stringLabel_injective, ?_⟩
  intro label hlabel label' hlabel'
  obtain ⟨name, -, rfl⟩ := List.mem_map.1 hlabel
  obtain ⟨k, -, rfl⟩ := List.mem_map.1 hlabel'
  exact globalLabel_ne_stringLabel name k

theorem head?_of_mem_dataLabels {p : Program} {pool : List String} (h : label ∈ dataLabels p pool) :
    label.toList.head? = some '_' := by
  rcases mem_dataLabels_iff.1 h with ⟨g, -, rfl⟩ | ⟨k, -, rfl⟩
  · exact head?_globalLabel _
  · exact head?_stringLabel k

/-! ### What is defined -/

namespace Assembled

variable {n : Nat} {branches : Bool} {p : Program} {N : Names} {kept : List (FunctionCode n)}
  {entry trap data : List (Primitive n)} {pool : List String} {code : List (Primitive n)}

variable (h : Assembled branches p N kept entry trap data pool code)

include h

variable {u : FunctionCode n} {label : String}

theorem defined_units : ((kept.flatMap FunctionCode.code).flatMap (Primitive.defined branches)).Perm
    (kept.map (·.function.name) ++ kept.flatMap (FunctionCode.labels branches)) := by
  have hunits : (kept.flatMap FunctionCode.code).flatMap (Primitive.defined branches) =
      kept.flatMap fun u => u.function.name :: u.labels branches := by
    rw [List.flatMap_assoc]
    exact List.flatMap_congr fun u hu => (h.unitOf u hu).defined_eq
  rw [hunits]
  exact (List.map_append_flatMap_perm ..).symm

/-- The labels that native code defines: the names of the retained functions, the labels inside
them, the entry and the trap, and the labels of the data. -/
theorem defined_perm : (code.flatMap (Primitive.defined branches)).Perm
    (kept.map (·.function.name) ++ (kept.flatMap (FunctionCode.labels branches) ++
      (entry ++ trap).flatMap (Primitive.defined branches)) ++ dataLabels p pool) := by
  have hdata : data.flatMap (Primitive.defined branches) =
      (Bytecode.globalNames p).map globalLabel := by
    rw [h.dataOf.defined_eq, Bytecode.globalNames, List.map_map]
    rfl
  have hflat : code.flatMap (Primitive.defined branches) =
      (kept.flatMap FunctionCode.code).flatMap (Primitive.defined branches) ++
        ((entry ++ trap).flatMap (Primitive.defined branches) ++ dataLabels p pool) := by
    simp only [h.code_eq, List.flatMap_append, hdata, defined_stringData, dataLabels,
      List.append_assoc]
    rfl
  rw [hflat, List.append_assoc, List.append_assoc, ← List.append_assoc (kept.map _)]
  exact h.defined_units.append_right _

/-- What stands in functions is in the unit of a retained function. -/
theorem mem_code_iff {q : Primitive n} (hq : q.isOuter = false) :
    q ∈ code ↔ ∃ u ∈ kept, q ∈ u.code := by
  have hne : ∀ q' : Primitive n, q'.isOuter = true → q ≠ q' := by
    rintro q' hq' rfl
    rw [hq] at hq'
    cases hq'
  have hentry : q ∉ entry := by
    rcases h.entry_eq with ⟨rfl, -⟩ | ⟨rfl, -⟩
    · exact fun hmem => hne _ rfl (List.mem_singleton.1 hmem)
    · exact List.not_mem_nil
  have htrap : q ∉ trap := by
    rcases h.trap_eq with ⟨rfl, -⟩ | ⟨rfl, -⟩
    · exact fun hmem => hne _ rfl (List.mem_singleton.1 hmem)
    · exact List.not_mem_nil
  have hdata : q ∉ data := fun hmem => by
    obtain ⟨label, value, heq⟩ := h.dataOf.isDatum q hmem
    exact hne _ rfl heq
  have hstrings : q ∉ stringData pool := fun hmem => by
    obtain ⟨label, content, heq⟩ := isString_of_mem_stringData hmem
    exact hne _ rfl heq
  simp [h.code_eq, hentry, htrap, hdata, hstrings, hne .text rfl, hne .data rfl]

theorem mem_defined_of_mem_kept (hu : u ∈ kept) :
    u.function.name ∈ code.flatMap (Primitive.defined branches) := by
  rw [h.defined_perm.mem_iff]
  exact List.mem_append_left _ (List.mem_append_left _ (List.mem_map_of_mem hu))

theorem mem_defined_of_mem_labels (hu : u ∈ kept) (hlabel : label ∈ u.labels branches) :
    label ∈ code.flatMap (Primitive.defined branches) := by
  rw [h.defined_perm.mem_iff]
  exact List.mem_append_left _ (List.mem_append_right _ (List.mem_append_left _
    (List.mem_flatMap.2 ⟨u, hu, hlabel⟩)))

theorem mem_defined_of_mem_dataLabels (hlabel : label ∈ dataLabels p pool) :
    label ∈ code.flatMap (Primitive.defined branches) := by
  rw [h.defined_perm.mem_iff]
  exact List.mem_append_right _ hlabel

/-- A function that is retained has a label. -/
theorem mem_defined_of_retained {f : FunctionDef} (hf : f ∈ p.functions)
    (hretained : p.Retained f.name) : f.name ∈ code.flatMap (Primitive.defined branches) := by
  obtain ⟨u, hu, rfl⟩ := (h.mem_kept_iff f hf).2 hretained
  exact h.mem_defined_of_mem_kept hu

/-- What a retained function calls has a label. -/
theorem mem_defined_of_mem_callees (hu : u ∈ kept) (hname : name ∈ u.callees) :
    name ∈ code.flatMap (Primitive.defined branches) := by
  have hf : u.function ∈ p.functions := h.sublist.subset (List.mem_map_of_mem hu)
  have hretained := (h.mem_kept_iff u.function hf).1 ⟨u, hu, rfl⟩
  rcases ((h.unitOf u hu).mem_callees_iff name).1 hname with hname | ⟨htrap, rfl⟩
  · obtain ⟨g, hg⟩ := (h.unitOf u hu).resolves name hname
    obtain ⟨hmem, rfl⟩ := FunctionTable.mem_of_get? h.functions hg
    exact h.mem_defined_of_retained hmem (.call hf hretained hname)
  · -- The trap is a function of the program or, if there is none, added behind the functions.
    rcases h.trap_eq with ⟨rfl, -, -⟩ | ⟨-, hown⟩
    · rw [h.defined_perm.mem_iff]
      simp [Primitive.defined]
    · obtain ⟨g, hg⟩ := Option.ne_none_iff_exists'.1 (hown ⟨u, hu, htrap.2⟩)
      rw [← FunctionTable.get?_of_ofProgram h.functions] at hg
      obtain ⟨hmem, heq⟩ := FunctionTable.mem_of_get? h.functions hg
      rw [← heq]
      exact h.mem_defined_of_retained hmem (heq ▸ .trap hf hretained htrap)

/-- What is retained is a function, unless it is the trap. -/
theorem exists_of_retained (hretained : p.Retained name) :
    (∃ f ∈ p.functions, f.name = name) ∨ name = Program.unreachable := by
  cases hretained with
  | kept hf _ | entryPoint hf _ => exact .inl ⟨_, hf, rfl⟩
  | call hf hcaller hcallee =>
    obtain ⟨u, hu, rfl⟩ := (h.mem_kept_iff _ hf).2 hcaller
    obtain ⟨g, hg⟩ := (h.unitOf u hu).resolves _ hcallee
    exact .inl ⟨g, FunctionTable.mem_of_get? h.functions hg⟩
  | trap => exact .inr rfl

/-- What native code uses is defined. -/
theorem mem_defined_of_mem_used (hlabel : label ∈ code.flatMap (Primitive.used branches)) :
    label ∈ code.flatMap (Primitive.defined branches) := by
  have hparts : label ∈ (kept.flatMap FunctionCode.code).flatMap (Primitive.used branches) ∨
      label ∈ entry.flatMap (Primitive.used branches) ∨
      label ∈ trap.flatMap (Primitive.used branches) ∨
      label ∈ data.flatMap (Primitive.used branches) := by
    rw [h.code_eq] at hlabel
    simpa [used_stringData, Primitive.used, or_assoc] using hlabel
  rcases hparts with hlabel | hlabel | hlabel | hlabel
  · obtain ⟨q, hq, hlabel⟩ := List.mem_flatMap.1 hlabel
    obtain ⟨u, hu, hq⟩ := List.mem_flatMap.1 hq
    rcases (h.unitOf u hu).uses label (List.mem_flatMap.2 ⟨q, hq, hlabel⟩) with
      hlabel | ⟨k, hk, rfl⟩ | ⟨name, d, hd, rfl⟩ | hlabel
    · exact h.mem_defined_of_mem_labels hu hlabel
    · exact h.mem_defined_of_mem_dataLabels (mem_dataLabels_iff.2 (.inr ⟨k, hk, rfl⟩))
    · obtain ⟨g, hg, hbinding⟩ := GlobalTable.mem_of_get? h.globals hd
      refine h.mem_defined_of_mem_dataLabels (mem_dataLabels_iff.2 (.inl ⟨g, hg, ?_⟩))
      rw [hbinding]
    · exact h.mem_defined_of_mem_callees hu hlabel
  · rcases h.entry_eq with ⟨rfl, hretained, -⟩ | ⟨rfl, -⟩
    · obtain rfl : label = Program.entryPoint := by simpa [Primitive.used] using hlabel
      rcases h.exists_of_retained hretained with ⟨f, hf, hname⟩ | hname
      · rw [← hname] at hretained ⊢
        exact h.mem_defined_of_retained hf hretained
      · exact absurd hname (by decide)
    · simp at hlabel
  · rcases h.trap_eq with ⟨rfl, -⟩ | ⟨rfl, -⟩
    · simp [Primitive.used] at hlabel
    · simp at hlabel
  · rw [h.dataOf.used_eq, h.dataOf.addresses_eq] at hlabel
    obtain ⟨content, hcontent, rfl⟩ := List.mem_map.1 hlabel
    have hlt := List.idxOf_lt_length_of_mem (h.dataOf.mem_strings content hcontent)
    exact h.mem_defined_of_mem_dataLabels (mem_dataLabels_iff.2 (.inr ⟨_, hlt, rfl⟩))

end Assembled

/-! ### What is defined once -/

/-- Of lists without duplicates, the first and the last of which may have elements in common, an
element occurs once unless it is in both. -/
theorem count_eq_one_iff {names others data : List String} (hnames : names.Nodup)
    (hothers : others.Nodup) (hdata : data.Nodup) (hfirst : names.Disjoint others)
    (hlast : others.Disjoint data) (hlabel : label ∈ names ++ others ++ data) :
    (names ++ others ++ data).count label = 1 ↔ ¬ (label ∈ names ∧ label ∈ data) := by
  simp only [List.count_append, hnames.count, hothers.count, hdata.count]
  have hfirst := @hfirst label
  have hlast := @hlast label
  simp only [List.mem_append] at hlabel
  split_ifs <;> simp_all

namespace Assembled

variable {n : Nat} {branches : Bool} {p : Program} {N : Names} {kept : List (FunctionCode n)}
  {entry trap data : List (Primitive n)} {pool : List String} {code : List (Primitive n)}
  (h : Assembled branches p N kept entry trap data pool code)

include h

variable {label : String}

theorem nodup_names : (kept.map (·.function.name)).Nodup := by
  have hsub : List.Sublist (kept.map (·.function.name)) (p.functions.map (·.name)) := by
    have hsub := h.sublist.map (·.name)
    rwa [List.map_map] at hsub
  exact (FunctionTable.nodup_of_ofProgram h.functions).sublist hsub

/-- The entry and the trap are added under names that no function has. -/
theorem nodup_added : ((entry ++ trap).flatMap (Primitive.defined branches)).Nodup ∧
    ∀ label ∈ (entry ++ trap).flatMap (Primitive.defined branches),
      p.function? label = none ∧ (label = systemEntry ∨ label = Program.unreachable) := by
  have hne : systemEntry ≠ Program.unreachable := by decide
  rcases h.entry_eq with ⟨rfl, -, hentry⟩ | ⟨rfl, -⟩ <;>
    rcases h.trap_eq with ⟨rfl, -, htrap⟩ | ⟨rfl, -⟩
  · simp [Primitive.defined, hentry, htrap, hne]
  · simp [Primitive.defined, hentry]
  · simp [Primitive.defined, htrap]
  · simp

theorem function?_of_mem_names (hlabel : label ∈ kept.map (·.function.name)) :
    p.function? label ≠ none := by
  obtain ⟨u, hu, rfl⟩ := List.mem_map.1 hlabel
  have hf := h.sublist.subset (List.mem_map_of_mem hu)
  rw [← FunctionTable.get?_of_ofProgram h.functions, FunctionTable.get?_of_mem h.functions hf]
  exact Option.some_ne_none _

/-- The labels inside functions are distinct if the names of functions are words. -/
theorem nodup_labels (hwords : ∀ f ∈ p.functions, IsWord f.name) :
    (kept.flatMap (FunctionCode.labels branches)).Nodup := by
  have hword : ∀ u ∈ kept, IsWord u.function.name := fun u hu =>
    hwords _ (h.sublist.subset (List.mem_map_of_mem hu))
  refine List.nodup_flatMap.2 ⟨fun u hu => (h.unitOf u hu).nodup_labels, ?_⟩
  refine List.Pairwise.imp_of_mem ?_ (List.pairwise_map.1 h.nodup_names)
  intro u u' hu hu' hne label hlabel hlabel'
  obtain ⟨suffix, rfl⟩ := (h.unitOf u hu).mem_labels label hlabel
  obtain ⟨suffix', heq⟩ := (h.unitOf u' hu').mem_labels _ hlabel'
  exact hne (Bytecode.sectionSymbol_inj (hword u hu) (hword u' hu') (append_left_injective _ heq)).1

theorem head?_of_mem_labels (hlabel : label ∈ kept.flatMap (FunctionCode.labels branches)) :
    label.toList.head? = some '.' := by
  obtain ⟨u, hu, hlabel⟩ := List.mem_flatMap.1 hlabel
  obtain ⟨suffix, rfl⟩ := (h.unitOf u hu).mem_labels label hlabel
  exact head?_inner _

/-- A label is defined once unless it is both the name of a function and a label of data. -/
theorem count_defined_eq_one_iff (hwords : ∀ f ∈ p.functions, IsWord f.name)
    (hlabel : label ∈ code.flatMap (Primitive.defined branches)) :
    (code.flatMap (Primitive.defined branches)).count label = 1 ↔
      ¬ (label ∈ kept.map (·.function.name) ∧ label ∈ dataLabels p pool) := by
  have hperm := h.defined_perm
  obtain ⟨hadded, hnew⟩ := h.nodup_added
  rw [hperm.count_eq]
  refine count_eq_one_iff h.nodup_names ?_ (nodup_dataLabels p pool) ?_ ?_ (hperm.mem_iff.1 hlabel)
  · refine List.nodup_append.2 ⟨h.nodup_labels hwords, hadded,
      fun label hlabel label' hlabel' => ?_⟩
    refine ne_of_head?_ne ?_
    rw [h.head?_of_mem_labels hlabel]
    rcases (hnew label' hlabel').2 with rfl | rfl <;> decide
  · intro label hname hother
    rcases List.mem_append.1 hother with hother | hother
    · obtain ⟨u, hu, rfl⟩ := List.mem_map.1 hname
      obtain ⟨u', hu', hother⟩ := List.mem_flatMap.1 hother
      obtain ⟨suffix, heq⟩ := (h.unitOf u' hu').mem_labels _ hother
      exact ne_inner_of_isWord (hwords _ (h.sublist.subset (List.mem_map_of_mem hu))) _ heq
    · exact h.function?_of_mem_names hname (hnew label hother).1
  · intro label hother hdata
    have hhead := head?_of_mem_dataLabels hdata
    rcases List.mem_append.1 hother with hother | hother
    · rw [h.head?_of_mem_labels hother] at hhead
      cases hhead
    · rcases (hnew label hother).2 with rfl | rfl <;> exact absurd hhead (by decide)

/-- Whether a function is retained can be seen from its label. -/
theorem label_mem_iff (hwords : ∀ f ∈ p.functions, IsWord f.name) {f : FunctionDef}
    (hf : f ∈ p.functions) : .label f.name ∈ code ↔ p.Retained f.name := by
  constructor
  · intro hlabel
    obtain ⟨u, hu, hlabel⟩ := (h.mem_code_iff rfl).1 hlabel
    have hname : f.name ∈ u.code.flatMap (Primitive.defined branches) :=
      List.mem_flatMap.2 ⟨_, hlabel, List.mem_singleton_self _⟩
    rw [(h.unitOf u hu).defined_eq] at hname
    rcases List.mem_cons.1 hname with hname | hname
    · rw [hname]
      exact (h.mem_kept_iff _ (h.sublist.subset (List.mem_map_of_mem hu))).1 ⟨u, hu, rfl⟩
    · obtain ⟨suffix, heq⟩ := (h.unitOf u hu).mem_labels _ hname
      exact absurd heq (ne_inner_of_isWord (hwords f hf) _)
  · intro hretained
    obtain ⟨u, hu, rfl⟩ := (h.mem_kept_iff f hf).2 hretained
    exact (h.mem_code_iff rfl).2 ⟨u, hu, (h.unitOf u hu).label_mem⟩

/-- What is read off the code of a program is read off its units and its data, unless it is read off
an entry or a trap. -/
theorem filterMap_code {β : Type} {g : Primitive n → Option β} (htext : g .text = none)
    (hdata : g .data = none) (hentry : ∀ name, g (.entry name) = none)
    (htrap : ∀ name, g (.trap name) = none) : code.filterMap g =
      kept.flatMap (fun u => u.code.filterMap g) ++
      (data.filterMap g ++ (stringData pool).filterMap g) := by
  have hentry : entry.filterMap g = [] := by
    rcases h.entry_eq with ⟨rfl, -⟩ | ⟨rfl, -⟩ <;> simp [hentry]
  have htrap : trap.filterMap g = [] := by
    rcases h.trap_eq with ⟨rfl, -⟩ | ⟨rfl, -⟩ <;> simp [htrap]
  simp [h.code_eq, hentry, htrap, htext, hdata, List.filterMap_flatMap]

/-- The addresses that native code takes are those of the strings of the program, in order. -/
theorem addresses_eq : code.filterMap Primitive.address? = (kept.flatMap (·.function.strings) ++
    (Bytecode.firstDefinitions [] p.globals).filterMap GlobalDef.string?).map
      fun content => stringLabel (pool.idxOf content) := by
  rw [h.filterMap_code rfl rfl (fun _ => rfl) (fun _ => rfl), h.dataOf.addresses_eq,
    address?_stringData, List.append_nil, List.map_append, List.map_flatMap]
  exact congrArg (· ++ _) (List.flatMap_congr fun u hu => (h.unitOf u hu).addresses_eq)

theorem strings_eq : code.filterMap Primitive.string? =
    pool.zipIdx.map fun entry => (stringLabel entry.2, entry.1) := by
  have hunits : kept.flatMap (fun u => u.code.filterMap Primitive.string?) = [] :=
    List.flatMap_eq_nil_iff.2 fun u hu => (h.unitOf u hu).string?_eq
  rw [h.filterMap_code rfl rfl (fun _ => rfl) (fun _ => rfl), hunits, h.dataOf.string?_eq,
    string?_stringData, List.nil_append, List.nil_append]

/-- Each address that is taken is that of the string which stands in the text in its place. -/
theorem forall₂_addresses : List.Forall₂
    (fun label content => ∃ k, label = stringLabel k ∧ pool[k]? = some content)
    (code.filterMap Primitive.address?) (kept.flatMap (·.function.strings) ++
      (Bytecode.firstDefinitions [] p.globals).filterMap GlobalDef.string?) := by
  rw [h.addresses_eq, List.forall₂_map_left_iff, List.forall₂_same]
  intro content hcontent
  have hpool : content ∈ pool := by
    rcases List.mem_append.1 hcontent with hcontent | hcontent
    · obtain ⟨u, hu, hcontent⟩ := List.mem_flatMap.1 hcontent
      exact (h.unitOf u hu).mem_strings content hcontent
    · exact h.dataOf.mem_strings content hcontent
  exact ⟨_, rfl, List.getElem?_idxOf hpool⟩

end Assembled

end Native

open Native

/-- The native code of a text is closed under labels. Every label that its lines use is defined by
one of its lines. A label is defined once, except precisely if a function that is retained has the
name of a label of data: that of a declared global or that of a string of the pool. The strings are
defined under the numbers of the pool, and each place that takes the address of a string refers to
the number under which its string stands. -/
theorem Program.labelClosed_of_toAssembly {text : String} {tokens : List (Located Token)}
    {p : Program} (htokens : tokenize text = .ok tokens) (hparse : parse tokens = .ok p)
    {a : Architecture} {asm : String} (h : p.toAssembly a = .ok asm) :
    ∃ (code : List (Primitive a.convention.registers)) (kept : List FunctionDef)
      (pool : List String),
      p.toNative a.convention = .ok code ∧ asm = String.join (code.map a.render) ∧
      List.Sublist kept p.functions ∧
      (∀ f ∈ p.functions, (f ∈ kept ↔ p.Retained f.name) ∧ (f ∈ kept ↔ .label f.name ∈ code)) ∧
      (∀ label ∈ code.flatMap a.used, label ∈ code.flatMap a.defined) ∧
      (∀ label ∈ code.flatMap a.defined, (code.flatMap a.defined).count label = 1 ↔
        ¬ ∃ f ∈ kept, f.name = label ∧ ((∃ g ∈ p.globals, label = globalLabel g.binding.name) ∨
          ∃ k < pool.length, label = stringLabel k)) ∧
      code.filterMap Primitive.string? =
      pool.zipIdx.map (fun entry => (stringLabel entry.2, entry.1)) ∧
      List.Forall₂ (fun label content => ∃ k, label = stringLabel k ∧ pool[k]? = some content)
        (code.filterMap Primitive.address?) (kept.flatMap FunctionDef.strings ++
          (Bytecode.firstDefinitions [] p.globals).filterMap GlobalDef.string?) := by
  obtain ⟨code, hnative, hasm⟩ := Fallible.except_bind_eq_ok.1 h
  cases hasm
  have hwords : ∀ f ∈ p.functions, IsWord f.name := fun f hf =>
    ((worded_of_parse htokens hparse).functions f hf).name
  obtain ⟨N, kept, entry, trap, data, pool, hall⟩ := assembled_of_toNative a.branches hnative
  have hmem : ∀ f ∈ p.functions, (f ∈ kept.map (·.function) ↔ p.Retained f.name) := fun f hf => by
    rw [List.mem_map]
    exact hall.mem_kept_iff f hf
  refine ⟨code, kept.map (·.function), pool, hnative, rfl, hall.sublist,
    fun f hf => ⟨hmem f hf, ?_⟩, ?_, ?_, hall.strings_eq, ?_⟩
  · rw [hmem f hf, hall.label_mem_iff hwords hf]
  · rw [a.used_eq, a.defined_eq]
    exact fun label hlabel => hall.mem_defined_of_mem_used hlabel
  · rw [a.defined_eq]
    intro label hlabel
    rw [hall.count_defined_eq_one_iff hwords hlabel, mem_dataLabels_iff]
    simp
  · rw [List.flatMap_map]
    exact hall.forall₂_addresses

/-- The text of a program in which a function has the name of the label of a global. -/
def Program.shadowingText : String :=
  "str s = \"a\"; function(keep) __global_s() -> str \x7b return \"b\"; \x7d"

/-- The tokens of `shadowingText`. -/
def Program.shadowingTokens : List (Located Token) := [
  ⟨0, .keyword .str⟩, ⟨4, .id "s"⟩, ⟨6, .assign⟩, ⟨8, .str "a"⟩, ⟨11, .semicolon⟩,
  ⟨13, .keyword .function⟩, ⟨21, .openParen⟩, ⟨22, .id "keep"⟩, ⟨26, .closeParen⟩,
  ⟨28, .id "__global_s"⟩, ⟨38, .openParen⟩, ⟨39, .closeParen⟩, ⟨41, .arrow⟩, ⟨44, .keyword .str⟩,
  ⟨48, .openCurly⟩, ⟨50, .keyword .return_⟩, ⟨57, .str "b"⟩, ⟨60, .semicolon⟩, ⟨62, .closeCurly⟩]

/-- The program of `shadowingText`. -/
def Program.shadowing : Program := ⟨[
  .global ⟨⟨"s", .str⟩, some (.str "a")⟩,
  .function ⟨"__global_s", { keep := true }, [], .str,
    .statements [.return_ (some (.literal (.str "b")))]⟩]⟩

/-- The function and the global have the same label, which is defined more than once. -/
theorem Program.labelClosed_of_toAssembly_shadowing : ∃ asm code,
    tokenize shadowingText = .ok shadowingTokens ∧ parse shadowingTokens = .ok shadowing ∧
      shadowing.toAssembly .riscv = .ok asm ∧ shadowing.toNative Riscv.convention = .ok code ∧
      (code.flatMap Architecture.riscv.defined).count "__global_s" ≠ 1 ∧
      ∀ label ∈ code.flatMap Architecture.riscv.used,
        label ∈ code.flatMap Architecture.riscv.defined := by
  have htokens : tokenize shadowingText = .ok shadowingTokens := by
    decide +kernel
  have hparse : parse shadowingTokens = .ok shadowing := by
    rfl
  have hnative : (shadowing.toNative Riscv.convention).toOption.isSome = true := by
    decide +kernel
  obtain ⟨code, hcode⟩ := Fallible.exists_ok_of_isSome hnative
  have hasm : shadowing.toAssembly .riscv =
      .ok (String.join (code.map Architecture.riscv.render)) :=
    Fallible.except_bind_eq_ok.2 ⟨code, hcode, rfl⟩
  obtain ⟨code, kept, pool, hcode, -, -, hkept, hused, hcount, -⟩ :=
    labelClosed_of_toAssembly htokens hparse hasm
  refine ⟨_, code, htokens, hparse, hasm, hcode, ?_, hused⟩
  obtain ⟨f, hf, hkeep, hname⟩ : ∃ f ∈ shadowing.functions, f.attributes.keep = true ∧
    f.name = "__global_s" := ⟨_, List.mem_cons_self .., rfl, rfl⟩
  have hmem : f ∈ kept := (hkept f hf).1.2 (.kept hf hkeep)
  have hlabel : "__global_s" ∈ code.flatMap Architecture.riscv.defined :=
    List.mem_flatMap.2 ⟨_, hname ▸ (hkept f hf).2.1 hmem, List.mem_singleton_self _⟩
  rw [Ne, hcount _ hlabel, not_not]
  exact ⟨f, hmem, hname, .inl ⟨⟨⟨"s", .str⟩, some (.str "a")⟩, List.mem_cons_self .., by decide⟩⟩

end Firestorm
