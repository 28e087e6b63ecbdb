import Firestorm.Bytecode.Linker
import Firestorm.Proofs.Bytecode.Linking

/-!
# The layout of an image in an output

An image is written in two passes: the items first, then the values of the references over the zeros
that were left for them. This file shows that the two passes together write the bytes of the image
in one piece, whatever the output holds and wherever it stands, and that nothing else in the output
changes.

The invariant of the first pass is that what has been written is the bytes of the items so far. The
one of the second pass is that what has been written is the finished bytes of the items whose
references are done and the blank bytes of the others.

## Main definitions

* `Bytecode.Output.KeepsOutside`, `Bytecode.AssignsValues`.

## Main results

* `Bytecode.overlay_overlay`, `Bytecode.run_linkInto`.
* `Bytecode.linkInto_layout`: when linking succeeds, what it writes, and what it stops with
  otherwise.
-/

namespace Firestorm.Bytecode

variable {item : Item} {name : String} {items before : List Item} {symbols : SymbolValues}
  {e : LinkError}

/-! ### Buffers -/

/-- A buffer in front of a position, with zeros where it does not reach the position. -/
def padded (buffer : List UInt8) (position : Nat) : List UInt8 :=
  buffer.take position ++ List.replicate (position - buffer.length) 0

@[simp] theorem length_padded (buffer : List UInt8) (position : Nat) :
    (padded buffer position).length = position := by
  rw [padded, List.length_append, List.length_take, List.length_replicate]
  omega

theorem overlay_eq (buffer : List UInt8) (position : Nat) (bytes : List UInt8) :
    overlay buffer position bytes =
      padded buffer position ++ (bytes ++ buffer.drop (position + bytes.length)) := by
  rw [overlay, padded, List.append_assoc]

theorem overlay_append (before after bytes : List UInt8) :
    overlay (before ++ after) before.length bytes = before ++
    (bytes ++ after.drop bytes.length) := by
  rw [overlay_eq, List.drop_append, padded, List.take_left, List.length_append,
    Nat.sub_eq_zero_of_le (Nat.le_add_right _ _), List.replicate_zero, List.append_nil,
    List.drop_eq_nil_of_le (Nat.le_add_right _ _), Nat.add_sub_cancel_left, List.nil_append]

/-- Bytes written over a part of what has been written. -/
theorem overlay_overlay (buffer : List UInt8) (position : Nat) (xs ys zs : List UInt8) :
    overlay (overlay buffer position (xs ++ ys)) (position + xs.length) zs =
      overlay buffer position (xs ++ (zs ++ ys.drop zs.length)) := by
  have hlength : position + xs.length = (padded buffer position ++ xs).length := by
    rw [List.length_append, length_padded]
  rw [overlay_eq buffer, List.append_assoc xs, ← List.append_assoc _ xs, hlength, overlay_append,
    List.drop_append, List.drop_drop, overlay_eq buffer]
  simp only [List.append_assoc, List.length_append, List.length_drop]
  congr 5
  omega

theorem Output.write_write (o : Output) (xs ys : List UInt8) :
    (o.write xs).write ys = o.write (xs ++ ys) := by
  have h := overlay_overlay o.buffer o.position xs [] ys
  rw [List.append_nil, List.drop_nil, List.append_nil] at h
  simp only [write, h, List.length_append, Nat.add_assoc]

/-! ### The first pass -/

@[simp] theorem Item.length_blankBytes (item : Item) : item.blankBytes.length = item.size := by
  cases item <;> simp [Item.blankBytes, Item.size]

theorem length_flatMap_blankBytes (items : List Item) :
    (items.flatMap Item.blankBytes).length = Item.totalSize items := by
  induction items with
  | nil => rfl
  | cons item items ih =>
    rw [List.flatMap_cons, List.length_append, Item.length_blankBytes, ih, Item.totalSize_cons]

/-- The references among items, with their offsets. -/
def referencesFrom : Nat → List Item → List (Nat × String)
  | _, [] => []
  | offset, item :: rest =>
    (item.reference? offset).toList ++ referencesFrom (offset + item.size) rest

theorem run_bind {α β : Type} (x : Linker α) (f : α → Linker β) (o : Output) :
    (x >>= f).run.run o =
      match x.run.run o with
      | (.ok a, o') => (f a).run.run o'
      | (.error e, o') => (.error e, o') := by
  change (match x o with | (r, o') => ExceptT.bindCont f r o') = match x o with
      | (.ok a, o') => f a o'
      | (.error e, o') => (.error e, o')
  rcases x o with ⟨_ | _, _⟩ <;> rfl

/-- What is known when an item has been written. -/
def Placement.next (p : Placement) (item : Item) (symbols : SymbolValues) : Placement :=
  ⟨symbols, p.references ++ (item.reference? p.offset).toList, p.offset + item.size⟩

variable {p : Placement}

theorem run_place_of_none (h : item.definition? p.offset = none) (o : Output) :
    (place p item).run.run o = (.ok (p.next item p.symbols), o.write item.blankBytes) := by
  simp only [place, h]
  rfl

theorem run_place_of_fresh {value : UInt64} (h : item.definition? p.offset = some (name, value))
    (hname : p.symbols.get? name = none) (o : Output) : (place p item).run.run o =
      (.ok (p.next item (p.symbols.set name value)), o.write item.blankBytes) := by
  simp only [place, h, hname]
  rfl

theorem run_place_of_known {value old : UInt64} (h : item.definition? p.offset = some (name, value))
    (hname : p.symbols.get? name = some old) (o : Output) :
    (place p item).run.run o = (.error (.duplicate name), o) := by
  simp only [place, h, hname]
  rfl

section

variable {position : Nat} {symbols : SymbolValues} {item : Item} {name : String} {value : UInt64}

theorem collect_cons_of_none (h : item.definition? position = none) (items : List Item) :
    collect position symbols (item :: items) =
      (collect (position + item.size) symbols items).mapError fun e => (e.1, item :: e.2) := by
  simp only [collect, h]

theorem collect_cons_of_fresh (h : item.definition? position = some (name, value))
    (hname : symbols.get? name = none) (items : List Item) :
    collect position symbols (item :: items) =
      (collect (position + item.size) (symbols.set name value) items).mapError
        fun e => (e.1, item :: e.2) := by
  simp only [collect, h, hname]
  rfl

theorem collect_cons_of_known {old : UInt64} (h : item.definition? position = some (name, value))
    (hname : symbols.get? name = some old) (items : List Item) :
    collect position symbols (item :: items) = .error (name, []) := by
  simp only [collect, h, hname]
  rfl

end

/-- What the first pass comes to when some bytes have been written and the items are left: they are
written one behind the other, up to one that defines a symbol again. -/
def placed (p : Placement) (o : Output) (written : List UInt8) (items : List Item) :
    Except LinkError Placement × Output :=
  match collect p.offset p.symbols items with
  | .ok symbols =>
    (.ok ⟨symbols, p.references ++ referencesFrom p.offset items, p.offset + Item.totalSize items⟩,
      o.write (written ++ items.flatMap Item.blankBytes))
  | .error (name, before) =>
    (.error (.duplicate name), o.write (written ++ before.flatMap Item.blankBytes))

theorem placed_cons
    (h : collect p.offset p.symbols (item :: items) =
      (collect (p.offset + item.size) symbols items).mapError fun e => (e.1, item :: e.2))
    (o : Output) (written : List UInt8) : placed p o written (item :: items) =
      placed (p.next item symbols) o (written ++ item.blankBytes) items := by
  simp only [placed, h, Placement.next]
  cases collect (p.offset + item.size) symbols items with
  | ok symbols =>
    simp only [Except.mapError, referencesFrom, Item.totalSize_cons, List.flatMap_cons,
      List.append_assoc, Nat.add_assoc]
  | error e => simp only [Except.mapError, List.flatMap_cons, List.append_assoc]

theorem run_foldlM_place (items : List Item) (p : Placement) (o : Output) (written : List UInt8) :
    (items.foldlM place p).run.run (o.write written) = placed p o written items := by
  induction items generalizing p written with
  | nil =>
    simp only [placed, collect, referencesFrom, List.append_nil, Item.totalSize_nil, Nat.add_zero,
      List.flatMap_nil]
    rfl
  | cons item items ih =>
    rw [List.foldlM_cons, run_bind]
    cases hdef : item.definition? p.offset with
    | none =>
      rw [run_place_of_none hdef, placed_cons (collect_cons_of_none hdef items)]
      simp only [Output.write_write, ih]
    | some d =>
      obtain ⟨name, value⟩ := d
      cases hname : p.symbols.get? name with
      | none =>
        rw [run_place_of_fresh hdef hname, placed_cons (collect_cons_of_fresh hdef hname items)]
        simp only [Output.write_write, ih]
      | some old =>
        rw [run_place_of_known hdef hname]
        simp only [placed, collect_cons_of_known hdef hname items, List.flatMap_nil,
          List.append_nil]

/-! ### The second pass -/

/-- Whether an image could be finished. -/
def Draft.outcome (d : Draft) : Except LinkError Unit :=
  match d.error? with
  | none => .ok ()
  | some e => .error e

theorem Draft.outcome_eq_ok {d : Draft} : d.outcome = .ok () ↔ d.error? = none := by
  cases h : d.error? <;> simp [outcome, h]

theorem Draft.outcome_eq_error {d : Draft} : d.outcome = .error e ↔ d.error? = some e := by
  cases h : d.error? <;> simp [outcome, h]

theorem patch_cons_of_ne (h : ∀ symbol, item ≠ .reference symbol) (items : List Item) :
    patch symbols (item :: items) =
      ⟨item.blankBytes ++ (patch symbols items).bytes, (patch symbols items).error?⟩ := by
  cases item with
  | reference symbol => exact absurd rfl (h symbol)
  | _ => rfl

/-- The second pass finishes the items behind those that are finished. -/
theorem run_relocate (symbols : SymbolValues) (buffer : List UInt8) (base : Nat) (items : List Item)
    (finished : List UInt8) (o : Output)
    (ho : o.buffer = overlay buffer base (finished ++ items.flatMap Item.blankBytes)) :
    ∃ position, (relocate base symbols (referencesFrom finished.length items)).run.run o =
      ((patch symbols items).outcome,
        ⟨overlay buffer base (finished ++ (patch symbols items).bytes), position⟩) := by
  induction items generalizing finished o with
  | nil => exact ⟨o.position, congrArg (Prod.mk _) (congrArg (Output.mk · o.position) ho)⟩
  | cons item items ih =>
    by_cases hitem : ∃ symbol, item = .reference symbol
    · obtain ⟨symbol, rfl⟩ := hitem
      cases hvalue : symbols.get? symbol with
      | none =>
        refine ⟨o.position, ?_⟩
        simp only [referencesFrom, Item.reference?, Option.toList_some, List.singleton_append,
          relocate, hvalue, patch, ← ho]
        rfl
      | some value =>
        -- the value takes the place of the zeros
        have hbuffer : ((o.seek (base + finished.length)).write (wordBytes value)).buffer =
            overlay buffer base (finished ++ wordBytes value ++ items.flatMap Item.blankBytes) := by
          simp only [Output.write, Output.seek, ho, overlay_overlay, List.flatMap_cons,
            List.append_assoc]
          rfl
        obtain ⟨position, hrun⟩ := ih _ _ hbuffer
        refine ⟨position, ?_⟩
        rw [List.length_append, length_wordBytes] at hrun
        simp only [referencesFrom, Item.reference?, Option.toList_some, List.singleton_append,
          relocate, hvalue, patch]
        rw [run_bind]
        exact hrun.trans (by rw [List.append_assoc]; rfl)
    · simp only [not_exists] at hitem
      have hreference : item.reference? finished.length = none := by
        cases item with
        | reference symbol => exact absurd rfl (hitem symbol)
        | _ => rfl
      rw [List.flatMap_cons, ← List.append_assoc] at ho
      obtain ⟨position, hrun⟩ := ih _ o ho
      refine ⟨position, ?_⟩
      rw [List.length_append, Item.length_blankBytes] at hrun
      rw [patch_cons_of_ne hitem, referencesFrom, hreference, Option.toList_none,
        List.nil_append, hrun, List.append_assoc]
      rfl

/-! ### Both passes -/

theorem draft_of_ok (h : collect 0 ∅ (headerItems ++ items) = .ok symbols) :
    draft items = patch symbols (headerItems ++ items) := by
  simp only [draft, h]

theorem draft_of_error (h : collect 0 ∅ (headerItems ++ items) = .error (name, before)) :
    draft items = ⟨before.flatMap Item.blankBytes, some (.duplicate name)⟩ := by
  simp only [draft, h]

theorem run_foldlM_place_image (items : List Item) (o : Output) :
    ((headerItems ++ items).foldlM place {}).run.run o = placed {} o [] (headerItems ++ items) := by
  -- the header is not empty, so something is written in any case
  obtain ⟨rest, hrest⟩ : ∃ rest, headerItems ++ items = .reference Program.entryPoint :: rest :=
    ⟨_, rfl⟩
  rw [hrest, List.foldlM_cons, run_bind, run_place_of_none rfl, placed_cons rfl]
  exact run_foldlM_place rest _ o _

/-- Linking into an output writes the image at its position, as far as it can be finished. -/
theorem run_linkInto (items : List Item) (o : Output) : ∃ position,
    (linkInto items).run.run o =
        ((draft items).outcome, ⟨overlay o.buffer o.position (draft items).bytes, position⟩) ∧
      ((draft items).error? = none →
        position = o.position + Item.totalSize (headerItems ++ items)) := by
  have hget : (linkInto items).run.run o =
      ((headerItems ++ items).foldlM place {} >>= fun p =>
        relocate o.position p.symbols p.references >>= fun _ =>
          (modify (·.seek (o.position + p.offset)) : Linker Unit)).run.run o := rfl
  rw [hget, run_bind, run_foldlM_place_image, placed]
  cases hcollect : collect 0 ∅ (headerItems ++ items) with
  | error e =>
    refine ⟨o.position + (draft items).bytes.length, ?_, ?_⟩
    · simp only [draft_of_error hcollect]
      rfl
    · rw [draft_of_error hcollect]
      intro hnone
      cases hnone
  | ok symbols =>
    rw [draft_of_ok hcollect]
    obtain ⟨position, hrun⟩ := run_relocate symbols o.buffer o.position (headerItems ++ items) []
      (o.write ((headerItems ++ items).flatMap Item.blankBytes)) rfl
    simp only [List.nil_append, List.length_nil] at hrun
    simp only [List.nil_append, run_bind, hrun, Draft.outcome]
    cases herror : (patch symbols (headerItems ++ items)).error? with
    | some e =>
      refine ⟨position, rfl, fun hnone => ?_⟩
      cases hnone
    | none => exact ⟨_, rfl, fun _ => by rw [Nat.zero_add]⟩

/-! ### What is written where -/

/-- An output has changed at most in a range of the given length that starts where it stood. A gap
in front of the range is filled with zeros. -/
def Output.KeepsOutside (o o' : Output) (length : Nat) : Prop :=
  (∀ i < o.position, o'.buffer[i]? = some (o.buffer[i]?.getD 0)) ∧
    ∀ i, o.position + length ≤ i → o'.buffer[i]? = o.buffer[i]?

theorem keepsOutside_of_overlay {o o' : Output} {bytes : List UInt8}
    (h : o'.buffer = overlay o.buffer o.position bytes) : o.KeepsOutside o' bytes.length := by
  rw [overlay_eq] at h
  refine ⟨fun i hi => ?_, fun i hi => ?_⟩
  · rw [h, List.getElem?_append_left (by rwa [length_padded]), padded]
    by_cases hbuffer : i < o.buffer.length
    · rw [List.getElem?_append_left (by rw [List.length_take]; omega), List.getElem?_take_of_lt hi,
        List.getElem?_eq_getElem hbuffer]
      rfl
    · rw [List.getElem?_append_right (by rw [List.length_take]; omega),
        List.getElem?_eq_none (Nat.le_of_not_lt hbuffer), List.getElem?_replicate, List.length_take,
        if_pos (by omega)]
      rfl
  · rw [h, List.getElem?_append_right (by rw [length_padded]; omega), length_padded,
      List.getElem?_append_right (by omega), List.getElem?_drop]
    congr 1
    omega

theorem take_drop_overlay (buffer : List UInt8) (position : Nat) (bytes : List UInt8) :
    ((overlay buffer position bytes).drop position).take bytes.length = bytes := by
  have hlength := length_padded buffer position
  rw [overlay_eq, List.drop_append_of_le_length (Nat.le_of_eq hlength.symm),
    List.drop_eq_nil_of_le (Nat.le_of_eq hlength), List.nil_append, List.take_left]

/-! ### Errors -/

theorem mapError_eq_error {α ε ε' : Type} {x : Except ε α} {f : ε → ε'} {e' : ε'}
    (h : x.mapError f = .error e') : ∃ e, x = .error e ∧ f e = e' := by
  cases x with
  | error e => exact ⟨e, rfl, Except.error.inj h⟩
  | ok a => cases h

/-- Collecting stops at the first item that defines a symbol again. -/
theorem exists_of_collect_eq_error {position : Nat}
    (h : collect position symbols items = .error (name, before)) :
    ∃ item after, items = before ++ item :: after ∧ item.symbol? = some name ∧
      (symbolsOf before).Nodup ∧ (∀ other ∈ symbolsOf before, symbols.get? other = none) ∧
      ((symbols.get? name).isSome ∨ name ∈ symbolsOf before) := by
  induction items generalizing position symbols before with
  | nil => cases h
  | cons item items ih =>
    have hsymbol := map_definition? position item
    cases hdef : item.definition? position with
    | none =>
      rw [hdef, Option.map_none] at hsymbol
      rw [collect_cons_of_none hdef] at h
      obtain ⟨⟨name', before'⟩, hrest, he⟩ := mapError_eq_error h
      cases he
      obtain ⟨item', after, rfl, hitem', hnodup, hfresh, hname⟩ := ih hrest
      refine ⟨item', after, rfl, hitem', ?_⟩
      rw [symbolsOf_cons, ← hsymbol]
      exact ⟨hnodup, hfresh, hname⟩
    | some d =>
      obtain ⟨first, value⟩ := d
      rw [hdef, Option.map_some] at hsymbol
      cases hfirst : symbols.get? first with
      | some old =>
        rw [collect_cons_of_known hdef hfirst] at h
        cases h
        exact ⟨item, items, rfl, hsymbol.symm, List.nodup_nil, by simp, .inl (by rw [hfirst]; rfl)⟩
      | none =>
        rw [collect_cons_of_fresh hdef hfirst] at h
        obtain ⟨⟨name', before'⟩, hrest, he⟩ := mapError_eq_error h
        cases he
        obtain ⟨item', after, rfl, hitem', hnodup, hfresh, hname⟩ := ih hrest
        have hne : ∀ other ∈ symbolsOf before', other ≠ first := by
          rintro other hother rfl
          have hnone := hfresh other hother
          rw [Table.get?_set_self] at hnone
          cases hnone
        refine ⟨item', after, rfl, hitem', ?_⟩
        rw [symbolsOf_cons, ← hsymbol, Option.toList_some, List.singleton_append]
        refine ⟨List.nodup_cons.2 ⟨fun hmem => hne first hmem rfl, hnodup⟩,
          List.forall_mem_cons.2 ⟨hfirst, fun other hother => ?_⟩, ?_⟩
        · rw [← Table.get?_set_of_ne symbols (hne other hother)]
          exact hfresh other hother
        · by_cases heq : name' = first
          · exact .inr (List.mem_cons.2 (.inl heq))
          · rw [Table.get?_set_of_ne symbols heq] at hname
            exact hname.imp_right (List.mem_cons_of_mem first)

/-- Replacing stops at the first reference to a symbol that has no value. -/
theorem exists_of_patch_error? (h : (patch symbols items).error? = some e) :
    ∃ before symbol after, items = before ++ .reference symbol :: after ∧ Resolved symbols before ∧
      symbols.get? symbol = none ∧ e = .unresolved symbol := by
  induction items with
  | nil => cases h
  | cons item items ih =>
    by_cases hitem : ∃ symbol, item = .reference symbol ∧ symbols.get? symbol = none
    · obtain ⟨symbol, rfl, hnone⟩ := hitem
      simp only [patch, hnone] at h
      cases h
      exact ⟨[], symbol, items, rfl, by simp [Resolved], hnone, rfl⟩
    · have hvalue : ∀ symbol, item = .reference symbol → ∃ value,
          symbols.get? symbol = some value :=
        fun symbol hsymbol => Option.ne_none_iff_exists'.1 fun hnone =>
          hitem ⟨symbol, hsymbol, hnone⟩
      have hrest : (patch symbols items).error? = some e := by
        cases item with
        | reference symbol =>
          obtain ⟨value, hget⟩ := hvalue symbol rfl
          simpa only [patch, hget] using h
        | _ => exact h
      obtain ⟨before, symbol, after, rfl, hbefore, hnone, he⟩ := ih hrest
      exact ⟨item :: before, symbol, after, rfl, resolved_cons.2 ⟨hvalue, hbefore⟩, hnone, he⟩

/-- The header defines no symbol. -/
theorem exists_of_headerItems_append {after : List Item}
    (h : headerItems ++ items = before ++ item :: after) (hitem : item.symbol? = some name) :
    ∃ before', before = headerItems ++ before' ∧ items = before' ++ item :: after := by
  rcases List.append_eq_append_iff.1 h with ⟨before', hbefore, hitems⟩ | ⟨cut, hheader, hcut⟩
  · exact ⟨before', hbefore, hitems⟩
  · cases cut with
    | nil => exact ⟨[], by rw [hheader, List.append_nil, List.append_nil], hcut.symm⟩
    | cons first cut =>
      obtain ⟨rfl, -⟩ := List.cons.inj hcut
      have hmem : item ∈ headerItems := by
        rw [hheader]
        exact List.mem_append_right _ List.mem_cons_self
      have hnone : ∀ item ∈ headerItems, item.symbol? = none := by decide
      rw [hnone item hmem] at hitem
      cases hitem

/-! ### The layout -/

/-- The values of symbols in an image: a label has the size of the header and of the items in front
of it, a constant has its number, and every symbol that is referred to has a value. -/
structure AssignsValues (items : List Item) (symbols : SymbolValues) : Prop where
  label : ∀ before name after, items = before ++ .label name :: after →
    symbols.get? name = some (24 + Item.totalSize before).toUInt64
  constant : ∀ name value, .constant name value ∈ items → symbols.get? name = some value
  reference : ∀ symbol, .reference symbol ∈ headerItems ++ items →
    ∃ value, symbols.get? symbol = some value

theorem assignsValues_of_defines
    (hdefines : ∀ name value, Defines 0 (headerItems ++ items) name value →
      symbols.get? name = some value)
    (hresolved : Resolved symbols (headerItems ++ items)) : AssignsValues items symbols where
  label before name after hitems := by
    refine hdefines name _ ⟨headerItems ++ before, .label name, after, ?_, ?_⟩
    · rw [hitems, List.append_assoc]
    · rw [Nat.zero_add, Item.totalSize_append]
      rfl
  constant name value hmem := by
    obtain ⟨before, after, rfl⟩ := List.append_of_mem hmem
    exact hdefines name value ⟨headerItems ++ before, .constant name value, after,
      by rw [List.append_assoc], rfl⟩
  reference := hresolved

theorem length_patch (symbols : SymbolValues) (items : List Item) :
    (patch symbols items).bytes.length = Item.totalSize items := by
  induction items with
  | nil => rfl
  | cons item items ih =>
    by_cases hitem : ∃ symbol, item = .reference symbol
    · obtain ⟨symbol, rfl⟩ := hitem
      cases hget : symbols.get? symbol with
      | some value =>
        simp only [patch, hget, List.length_append, length_wordBytes, ih]
        rfl
      | none => simp only [patch, hget, length_flatMap_blankBytes]
    · rw [patch_cons_of_ne (not_exists.1 hitem), List.length_append, Item.length_blankBytes, ih]
      rfl

theorem totalSize_image (items : List Item) :
    Item.totalSize (headerItems ++ items) = 24 + Item.totalSize items :=
  Item.totalSize_append headerItems items

theorem outcome_draft_eq_ok_iff (items : List Item) :
    (draft items).outcome = .ok () ↔ ∃ image, link items = .ok image := by
  rw [Draft.outcome_eq_ok]
  cases h : (draft items).error? <;> simp [link, h]

/-- A finished image. -/
theorem draft_of_error?_eq_none (h : (draft items).error? = none) :
    (draft items).bytes.length = 24 + Item.totalSize items ∧ ∃ symbols,
    AssignsValues items symbols ∧
      (draft items).bytes = (headerItems ++ items).flatMap (Item.resolved symbols) := by
  have hlink : link items = .ok (draft items).bytes := by
    simp only [link, h]
  obtain ⟨symbols, hbytes, hresolved, hdefines, -, -⟩ := link_eq_ok hlink
  refine ⟨?_, symbols, assignsValues_of_defines hdefines hresolved, hbytes⟩
  cases hcollect : collect 0 ∅ (headerItems ++ items) with
  | error e =>
    rw [draft_of_error hcollect] at h
    cases h
  | ok symbols' => rw [draft_of_ok hcollect, length_patch, totalSize_image]

/-- An image that cannot be finished. -/
theorem draft_of_error?_eq_some (h : (draft items).error? = some e) :
    (∃ before item after name, items = before ++ item :: after ∧ (symbolsOf before).Nodup ∧
      item.symbol? = some name ∧ name ∈ symbolsOf before ∧ e = .duplicate name ∧
      (draft items).bytes.length = 24 + Item.totalSize before) ∨
    (symbolsOf items).Nodup ∧ ∃ before symbol after,
      headerItems ++ items = before ++ .reference symbol :: after ∧
      (∀ other, .reference other ∈ before → other ∈ symbolsOf items) ∧ symbol ∉ symbolsOf items ∧
      e = .unresolved symbol ∧ (draft items).bytes.length = 24 + Item.totalSize items := by
  cases hcollect : collect 0 ∅ (headerItems ++ items) with
  | error d =>
    obtain ⟨name, before⟩ := d
    obtain ⟨item, after, hitems, hitem, hnodup, -, hname⟩ := exists_of_collect_eq_error hcollect
    obtain ⟨before', rfl, hitems'⟩ := exists_of_headerItems_append hitems hitem
    rw [symbolsOf_image] at hnodup hname
    rw [draft_of_error hcollect] at h ⊢
    cases h
    refine .inl ⟨before', item, after, name, hitems', hnodup, hitem, hname.resolve_left (by simp),
      rfl, ?_⟩
    rw [length_flatMap_blankBytes, totalSize_image]
  | ok symbols =>
    obtain ⟨hnodup, -, hvalues, hother⟩ := collect_eq_ok hcollect
    rw [symbolsOf_image] at hnodup hother
    rw [draft_of_ok hcollect] at h ⊢
    obtain ⟨before, symbol, after, hitems, hbefore, hnone, rfl⟩ := exists_of_patch_error? h
    refine .inr ⟨hnodup, before, symbol, after, hitems, fun other hmem => ?_, fun hmem => ?_,
      rfl, ?_⟩
    · by_contra hnot
      obtain ⟨value, hvalue⟩ := hbefore other hmem
      rw [hother other hnot] at hvalue
      cases hvalue
    · rw [← symbolsOf_image] at hmem
      obtain ⟨value, hdefines⟩ := exists_defines_of_mem hmem 0
      rw [hvalues symbol value hdefines] at hnone
      cases hnone
    · rw [length_patch, totalSize_image]

/-- Linking succeeds exactly if no symbol is defined twice and every symbol that is referred to, in
the header or in an item, is defined. It then writes the header and the items one behind the other,
and the output comes to stand behind them. Otherwise it stops at the first symbol that is defined
again, if there is one, or else at the first reference that cannot be resolved. Whatever happens,
the output changes nowhere else. -/
theorem linkInto_layout (items : List Item) (o : Output) :
    ∃ (result : Except LinkError Unit) (o' : Output), (linkInto items).run.run o = (result, o') ∧
      (result = .ok () ↔ (symbolsOf items).Nodup ∧
        ∀ symbol, .reference symbol ∈ headerItems ++ items → symbol ∈ symbolsOf items) ∧
      (result = .ok () → (∃ symbols, AssignsValues items symbols ∧
          (o'.buffer.drop o.position).take (24 + Item.totalSize items) =
            (headerItems ++ items).flatMap (Item.resolved symbols)) ∧
        o'.position = o.position + 24 + Item.totalSize items ∧
        o.KeepsOutside o' (24 + Item.totalSize items)) ∧
      ∀ e, result = .error e →
        (∃ before item after name, items = before ++ item :: after ∧ (symbolsOf before).Nodup ∧
          item.symbol? = some name ∧ name ∈ symbolsOf before ∧ e = .duplicate name ∧
          o.KeepsOutside o' (24 + Item.totalSize before)) ∨
        (symbolsOf items).Nodup ∧ ∃ before symbol after,
          headerItems ++ items = before ++ .reference symbol :: after ∧
          (∀ other, .reference other ∈ before → other ∈ symbolsOf items) ∧
          symbol ∉ symbolsOf items ∧
          e = .unresolved symbol ∧ o.KeepsOutside o' (24 + Item.totalSize items) := by
  obtain ⟨position, hrun, hposition⟩ := run_linkInto items o
  refine ⟨_, _, hrun, (outcome_draft_eq_ok_iff items).trans (exists_link_eq_ok_iff items), ?_, ?_⟩
  · intro hok
    have herror := Draft.outcome_eq_ok.1 hok
    obtain ⟨hlength, symbols, hsymbols, hbytes⟩ := draft_of_error?_eq_none herror
    refine ⟨⟨symbols, hsymbols, ?_⟩, ?_, ?_⟩
    · rw [← hlength, take_drop_overlay, hbytes]
    · rw [hposition herror, totalSize_image, Nat.add_assoc]
    · rw [← hlength]
      exact keepsOutside_of_overlay rfl
  · intro e he
    rcases draft_of_error?_eq_some (Draft.outcome_eq_error.1 he) with
      ⟨before, item, after, name, hitems, hnodup, hitem, hname, rfl, hlength⟩ |
      ⟨hnodup, before, symbol, after, hitems, hbefore, hsymbol, rfl, hlength⟩
    · refine .inl ⟨before, item, after, name, hitems, hnodup, hitem, hname, rfl, ?_⟩
      rw [← hlength]
      exact keepsOutside_of_overlay rfl
    · refine .inr ⟨hnodup, before, symbol, after, hitems, hbefore, hsymbol, rfl, ?_⟩
      rw [← hlength]
      exact keepsOutside_of_overlay rfl

end Firestorm.Bytecode
