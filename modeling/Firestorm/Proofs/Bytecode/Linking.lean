import Mathlib.Data.List.Count
import Firestorm.Bytecode.Image
import Firestorm.Proofs.Fallible
import Firestorm.Proofs.Symbols.Tables

/-!
# What linking finds

Linking gives every symbol its value and then replaces every reference. This file says when each of
the two steps succeeds, which error it stops with otherwise, and what the finished image is made of.

## Main definitions

* `Bytecode.Item.symbol?`, `Bytecode.symbolsOf`, `Bytecode.Item.resolved`.

## Main results

* `Bytecode.link_eq_ok`, `Bytecode.exists_link_eq_ok_iff`, `Bytecode.link_eq_error`.
-/

namespace Firestorm.Bytecode

variable {position : Nat} {name : String} {symbols : SymbolValues}

/-- The symbol that an item defines. -/
def Item.symbol? : Item → Option String
  | .label name | .constant name _ => some name
  | _ => none

/-- The symbols that items define, in order. -/
def symbolsOf (items : List Item) : List String :=
  items.filterMap Item.symbol?

@[simp] theorem symbolsOf_nil : symbolsOf [] = [] := rfl

@[simp] theorem symbolsOf_cons (item : Item) (items : List Item) :
    symbolsOf (item :: items) = item.symbol?.toList ++ symbolsOf items := by
  cases h : item.symbol? <;> simp [symbolsOf, h]

@[simp] theorem symbolsOf_append (items more : List Item) :
    symbolsOf (items ++ more) = symbolsOf items ++ symbolsOf more :=
  List.filterMap_append

theorem map_definition? (position : Nat) (item : Item) :
    (item.definition? position).map Prod.fst = item.symbol? := by
  cases item <;> rfl

/-! ### Values of symbols -/

/-- What is known of a definition among items. -/
def Defines (position : Nat) (items : List Item) (name : String) (value : UInt64) : Prop :=
  ∃ before item after, items = before ++ item :: after ∧
    item.definition? (position + Item.totalSize before) = some (name, value)

variable {items : List Item}

theorem defines_cons {item : Item} {value : UInt64} : Defines position (item :: items) name value ↔
      item.definition? position = some (name, value) ∨
        Defines (position + item.size) items name value := by
  constructor
  · rintro ⟨before, item', after, heq, hdef⟩
    cases before with
    | nil =>
      obtain ⟨rfl, rfl⟩ := List.cons.inj heq
      exact .inl hdef
    | cons first before =>
      obtain ⟨rfl, rfl⟩ := List.cons.inj heq
      refine .inr ⟨before, item', after, rfl, ?_⟩
      rwa [Item.totalSize_cons, ← Nat.add_assoc] at hdef
  · rintro (hdef | ⟨before, item', after, rfl, hdef⟩)
    · exact ⟨[], item, items, rfl, hdef⟩
    · refine ⟨item :: before, item', after, rfl, ?_⟩
      rwa [Item.totalSize_cons, ← Nat.add_assoc]

theorem exists_defines_of_mem (h : name ∈ symbolsOf items) (position : Nat) :
    ∃ value, Defines position items name value := by
  obtain ⟨item, hmem, hsymbol⟩ := List.mem_filterMap.1 h
  obtain ⟨before, after, rfl⟩ := List.append_of_mem hmem
  rw [← map_definition? (position + Item.totalSize before)] at hsymbol
  obtain ⟨⟨name', value⟩, hdef, rfl⟩ := Option.map_eq_some_iff.1 hsymbol
  exact ⟨value, before, item, after, rfl, hdef⟩

/-- Collecting succeeds only if every symbol is new, and gives each symbol the value of its
definition. -/
theorem collect_eq_ok {symbols' : SymbolValues}
    (h : collect position symbols items = .ok symbols') :
    (symbolsOf items).Nodup ∧ (∀ name ∈ symbolsOf items, symbols.get? name = none) ∧
      (∀ name value, Defines position items name value → symbols'.get? name = some value) ∧
      ∀ name, name ∉ symbolsOf items → symbols'.get? name = symbols.get? name := by
  induction items generalizing position symbols with
  | nil =>
    cases h
    refine ⟨List.nodup_nil, by simp, ?_, fun _ _ => rfl⟩
    rintro name value ⟨before, item, after, heq, -⟩
    simp at heq
  | cons item items ih =>
    cases hdef : item.definition? position with
    | none =>
      have hsymbol : item.symbol? = none := by rw [← map_definition? position, hdef]; rfl
      simp only [collect, hdef] at h
      obtain ⟨hnodup, hfresh, hvalues, hother⟩ := ih (Fallible.mapError_eq_ok.1 h)
      simp only [symbolsOf_cons, hsymbol, Option.toList_none, List.nil_append]
      refine ⟨hnodup, hfresh, fun name value hd => ?_, hother⟩
      rcases defines_cons.1 hd with hd | hd
      · rw [hdef] at hd
        cases hd
      · exact hvalues name value hd
    | some d =>
      obtain ⟨name, value⟩ := d
      have hsymbol : item.symbol? = some name := by rw [← map_definition? position, hdef]; rfl
      simp only [collect, hdef] at h
      cases hget : symbols.get? name with
      | some old => simp [hget] at h
      | none =>
        simp only [hget, Option.isSome_none, Bool.false_eq_true, if_false] at h
        obtain ⟨hnodup, hfresh, hvalues, hother⟩ := ih (Fallible.mapError_eq_ok.1 h)
        simp only [symbolsOf_cons, hsymbol, Option.toList_some, List.singleton_append]
        have hnew : name ∉ symbolsOf items := fun hmem => by
          simpa using hfresh name hmem
        refine ⟨List.nodup_cons.2 ⟨hnew, hnodup⟩, List.forall_mem_cons.2 ⟨hget, ?_⟩, ?_, ?_⟩
        · intro name' hname'
          have := hfresh name' hname'
          rwa [Table.get?_set_of_ne symbols (by rintro rfl; exact hnew hname')] at this
        · intro name' value' hd
          rcases defines_cons.1 hd with hd | hd
          · rw [hdef] at hd
            cases hd
            rw [hother _ hnew, Table.get?_set_self]
          · exact hvalues name' value' hd
        · intro name' hname'
          obtain ⟨hne, hname'⟩ := not_or.1 (List.mem_cons.not.1 hname')
          rw [hother name' hname', Table.get?_set_of_ne symbols hne]

/-- Collecting stops at a symbol that is known already or defined twice. -/
theorem collect_eq_error {before : List Item}
    (h : collect position symbols items = .error (name, before)) : name ∈ symbolsOf items ∧
      ((symbols.get? name).isSome ∨ 2 ≤ (symbolsOf items).count name) := by
  induction items generalizing position symbols before with
  | nil => cases h
  | cons item items ih =>
    cases hdef : item.definition? position with
    | none =>
      have hsymbol : item.symbol? = none := by rw [← map_definition? position, hdef]; rfl
      simp only [collect, hdef] at h
      simp only [symbolsOf_cons, hsymbol, Option.toList_none, List.nil_append]
      cases hrest : collect (position + item.size) symbols items with
      | ok symbols' => simp [hrest, Except.mapError] at h
      | error e =>
        simp only [hrest, Except.mapError, Except.error.injEq, Prod.mk.injEq] at h
        obtain ⟨rfl, -⟩ := h
        exact ih hrest
    | some d =>
      obtain ⟨first, value⟩ := d
      have hsymbol : item.symbol? = some first := by rw [← map_definition? position, hdef]; rfl
      simp only [collect, hdef] at h
      simp only [symbolsOf_cons, hsymbol, Option.toList_some, List.singleton_append]
      cases hget : symbols.get? first with
      | some old =>
        simp only [hget, Option.isSome_some, if_true, Except.error.injEq, Prod.mk.injEq] at h
        obtain ⟨rfl, -⟩ := h
        exact ⟨List.mem_cons_self .., .inl (by rw [hget]; rfl)⟩
      | none =>
        simp only [hget, Option.isSome_none, Bool.false_eq_true, if_false] at h
        cases hrest : collect (position + item.size) (symbols.set first value) items with
        | ok symbols' => simp [hrest, Except.mapError] at h
        | error e =>
          simp only [hrest, Except.mapError, Except.error.injEq, Prod.mk.injEq] at h
          obtain ⟨rfl, -⟩ := h
          obtain ⟨hmem, hcases⟩ := ih hrest
          refine ⟨List.mem_cons_of_mem _ hmem, ?_⟩
          by_cases hname : e.1 = first
          · rw [← hname, List.count_cons_self]
            exact .inr (Nat.succ_le_succ (List.count_pos_iff.2 hmem))
          · rw [Table.get?_set_of_ne symbols hname] at hcases
            rw [List.count_cons_of_ne (Ne.symm hname)]
            exact hcases

/-! ### Replaced references -/

/-- The bytes of an item once symbols have values. -/
def Item.resolved (symbols : SymbolValues) : Item → List UInt8
  | .reference symbol => wordBytes ((symbols.get? symbol).getD 0)
  | item => item.blankBytes

/-- The symbols that items refer to all have a value. -/
def Resolved (symbols : SymbolValues) (items : List Item) : Prop :=
  ∀ symbol, .reference symbol ∈ items → ∃ value, symbols.get? symbol = some value

theorem resolved_cons {item : Item} : Resolved symbols (item :: items) ↔
      (∀ symbol, item = .reference symbol → ∃ value, symbols.get? symbol = some value) ∧
        Resolved symbols items := by
  simp only [Resolved, List.mem_cons, or_imp, forall_and, eq_comm]

theorem patch_of_resolved (h : Resolved symbols items) :
    patch symbols items = ⟨items.flatMap (Item.resolved symbols), none⟩ := by
  induction items with
  | nil => rfl
  | cons item items ih =>
    obtain ⟨hitem, hitems⟩ := resolved_cons.1 h
    cases item with
    | reference symbol =>
      obtain ⟨value, hvalue⟩ := hitem symbol rfl
      simp only [patch, hvalue, ih hitems, List.flatMap_cons, Item.resolved, Option.getD_some]
    | _ => simp only [patch, ih hitems, List.flatMap_cons, Item.resolved]

theorem patch_error? (h : ¬ Resolved symbols items) :
    ∃ symbol, (patch symbols items).error? = some (.unresolved symbol) ∧
      .reference symbol ∈ items ∧ symbols.get? symbol = none := by
  induction items with
  | nil => simp [Resolved] at h
  | cons item items ih =>
    by_cases hitem : ∀ symbol, item = .reference symbol → ∃ value, symbols.get? symbol = some value
    · obtain ⟨symbol, herror, hmem, hnone⟩ := ih fun hitems => h (resolved_cons.2 ⟨hitem, hitems⟩)
      refine ⟨symbol, ?_, List.mem_cons_of_mem _ hmem, hnone⟩
      cases item with
      | reference symbol' =>
        obtain ⟨value, hvalue⟩ := hitem symbol' rfl
        simpa only [patch, hvalue] using herror
      | _ => simpa only [patch] using herror
    · simp only [not_forall, not_exists] at hitem
      obtain ⟨symbol, rfl, hnone⟩ := hitem
      have hnone := Option.eq_none_iff_forall_ne_some.2 hnone
      exact ⟨symbol, by simp only [patch, hnone], List.mem_cons_self .., hnone⟩

/-! ### Images -/

/-- The symbols that all items of an image define and the header refers to. -/
theorem symbolsOf_image (items : List Item) :
    symbolsOf (headerItems ++ items) = symbolsOf items := by
  rw [symbolsOf_append]
  rfl

/-- What a finished image is made of: the bytes of its items with the values of the symbols, which
are those of their definitions. -/
theorem link_eq_ok {image : List UInt8} (h : link items = .ok image) :
    ∃ symbols : SymbolValues, image = (headerItems ++ items).flatMap (Item.resolved symbols) ∧
      Resolved symbols (headerItems ++ items) ∧
      (∀ name value, Defines 0 (headerItems ++ items) name value →
        symbols.get? name = some value) ∧
      (∀ name, name ∉ symbolsOf items → symbols.get? name = none) ∧ (symbolsOf items).Nodup := by
  unfold link draft at h
  cases hcollect : collect 0 ∅ (headerItems ++ items) with
  | error e => simp [hcollect] at h
  | ok symbols =>
    obtain ⟨hnodup, -, hvalues, hother⟩ := collect_eq_ok hcollect
    rw [symbolsOf_image] at hnodup hother
    simp only [hcollect] at h
    by_cases hresolved : Resolved symbols (headerItems ++ items)
    · simp only [patch_of_resolved hresolved, Except.ok.injEq] at h
      exact ⟨symbols, h.symm, hresolved, hvalues, hother, hnodup⟩
    · obtain ⟨symbol, herror, -, -⟩ := patch_error? hresolved
      simp [herror] at h

/-- An image cannot be finished because a symbol is defined twice, or else because one that is
referred to is not defined. -/
theorem link_eq_error {error : LinkError} (h : link items = .error error) :
    (∃ name, error = .duplicate name ∧ 2 ≤ (symbolsOf items).count name) ∨
      ((symbolsOf items).Nodup ∧ ∃ symbol, error = .unresolved symbol ∧
        .reference symbol ∈ headerItems ++ items ∧ symbol ∉ symbolsOf items) := by
  unfold link draft at h
  cases hcollect : collect 0 ∅ (headerItems ++ items) with
  | error e =>
    obtain ⟨name, before⟩ := e
    simp only [hcollect, Except.error.injEq] at h
    obtain ⟨-, hcases⟩ := collect_eq_error hcollect
    rw [symbolsOf_image] at hcases
    exact .inl ⟨name, h.symm, by simpa using hcases⟩
  | ok symbols =>
    obtain ⟨hnodup, -, hvalues, -⟩ := collect_eq_ok hcollect
    rw [symbolsOf_image] at hnodup
    simp only [hcollect] at h
    by_cases hresolved : Resolved symbols (headerItems ++ items)
    · simp [patch_of_resolved hresolved] at h
    · obtain ⟨symbol, herror, hmem, hnone⟩ := patch_error? hresolved
      simp only [herror, Except.error.injEq] at h
      refine .inr ⟨hnodup, symbol, h.symm, hmem, fun hsymbol => ?_⟩
      rw [← symbolsOf_image] at hsymbol
      obtain ⟨value, hdefines⟩ := exists_defines_of_mem hsymbol 0
      rw [hvalues symbol value hdefines] at hnone
      cases hnone

/-- An image can be finished if and only if no symbol is defined twice and every symbol that is
referred to is defined. -/
theorem exists_link_eq_ok_iff (items : List Item) : (∃ image, link items = .ok image) ↔
    (symbolsOf items).Nodup ∧
      ∀ symbol, .reference symbol ∈ headerItems ++ items → symbol ∈ symbolsOf items := by
  constructor
  · rintro ⟨image, h⟩
    obtain ⟨symbols, -, hresolved, -, hother, hnodup⟩ := link_eq_ok h
    refine ⟨hnodup, fun symbol hmem => ?_⟩
    by_contra hsymbol
    obtain ⟨value, hvalue⟩ := hresolved symbol hmem
    rw [hother symbol hsymbol] at hvalue
    cases hvalue
  · rintro ⟨hnodup, hdefined⟩
    cases h : link items with
    | ok image => exact ⟨image, rfl⟩
    | error error =>
      rcases link_eq_error h with ⟨name, -, hcount⟩ | ⟨-, symbol, -, hmem, hsymbol⟩
      · have := List.nodup_iff_count_le_one.1 hnodup name
        omega
      · exact absurd (hdefined symbol hmem) hsymbol

/-- Linking where the symbols are different up to the first, and where everything that is referred
to is defined up to one symbol. -/
theorem link_of_symbols {symbols : List String} {first entry : String}
    (hsymbols : symbolsOf items = first :: symbols) (hnodup : symbols.Nodup) (hne : entry ≠ first)
    (hentry : .reference entry ∈ headerItems ++ items)
    (hrefs : ∀ symbol, .reference symbol ∈ headerItems ++ items →
      symbol = entry ∨ symbol = first ∨ symbol ∈ symbols) :
    ((∃ image, link items = .ok image) ↔ entry ∈ symbols ∧ first ∉ symbols) ∧
      (∀ e, link items = .error e → e = .duplicate first ∨ e = .unresolved entry) ∧
      ∀ symbol, .reference symbol ∈ headerItems ++ items → symbol ≠ entry → symbol ≠ first →
        (symbolsOf items).count symbol = 1 := by
  refine ⟨?_, fun e he => ?_, fun symbol hmem hsymbol hfirst => ?_⟩
  · rw [exists_link_eq_ok_iff, hsymbols, List.nodup_cons]
    constructor
    · rintro ⟨⟨hfirst, -⟩, hall⟩
      exact ⟨List.mem_of_ne_of_mem hne (hall entry hentry), hfirst⟩
    · rintro ⟨hmem, hfirst⟩
      refine ⟨⟨hfirst, hnodup⟩, fun symbol hsymbol => ?_⟩
      rcases hrefs symbol hsymbol with rfl | rfl | h
      · exact List.mem_cons_of_mem _ hmem
      · exact List.mem_cons_self ..
      · exact List.mem_cons_of_mem _ h
  · rcases link_eq_error he with ⟨name, rfl, hcount⟩ | ⟨-, symbol, rfl, hsymbol, hundefined⟩
    · refine .inl (congrArg LinkError.duplicate ?_)
      by_contra hname
      rw [hsymbols, List.count_cons_of_ne (Ne.symm hname)] at hcount
      have := List.nodup_iff_count_le_one.1 hnodup name
      omega
    · rw [hsymbols, List.mem_cons, not_or] at hundefined
      have hentry := (hrefs symbol hsymbol).resolve_right (not_or.2 hundefined)
      exact .inr (congrArg LinkError.unresolved hentry)
  · have hsymbol := ((hrefs symbol hmem).resolve_left hsymbol).resolve_left hfirst
    rw [hsymbols, List.count_cons_of_ne (Ne.symm hfirst)]
    exact List.count_eq_one_of_mem hnodup hsymbol

end Firestorm.Bytecode
