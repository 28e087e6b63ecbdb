import Mathlib.Algebra.Order.Sub.Basic
import Mathlib.Data.List.Nodup
import Firestorm.Proofs.Heap.FirstFit

/-!
# Strings that are kept

A string gets a block when it is asked for first, and the heap keeps a table of strings and
pointers. Blocks around it come and go, and their cells are given out again. The block of a string
stays: whatever is called later, the string has the same pointer, no other string has it, and its
block is neither taken back nor overlapped. Only writing to its cells changes what they hold.

Nothing of this is read off the table. The transcript of calls, which says what each call has
returned, says which blocks are outstanding and which pointers belong to strings.

## Main definitions

* `Heap.Effect`, `Heap.transcript`, `Heap.outstanding`, `Heap.internedPointers`, `Heap.Interned`.

## Main results

* `Heap.effect_perform`, `Heap.after_induction`, `Heap.mem_strings_after`, `Heap.blocks_after`.
* `Heap.interning_stable`: a string that is kept stays as it is.
-/

namespace Firestorm.Heap

variable {text : String} {pointer : Word} {start cell : Nat} {b : Block}

/-! ### What a call does -/

/-- The heap with one more string, in a block at the given start. -/
def keep (h : Heap) (text : String) (start : Nat) : Heap :=
  { h.reserve start (stringCells text).length with
    cells := ((h.reserve start (stringCells text).length).setCells start (stringCells text)).cells
    strings := (text, Int64.ofNat start) :: h.strings }

/-- What a call can do to a heap, with its result. -/
inductive Effect (h : Heap) : Call → Except HeapError Word → Heap → Prop
  | failure {call : Call} {e : HeapError} : Effect h call (.error e) h
  | read {pointer index value : Word} : Effect h (.read pointer index) (.ok value) h
  | allocate {length : Word} {start : Nat}
    (hfit : h.firstFit? (max length.toNatClampNeg 1) = some start) :
    Effect h (.allocate length) (.ok (Int64.ofNat start))
      (h.reserve start (max length.toNatClampNeg 1))
  | deallocate {pointer : Word} {h' : Heap} (hdeallocate : h.deallocate pointer = .ok h') :
    Effect h (.deallocate pointer) (.ok 0) h'
  | write {pointer index value : Word} {cell : Nat} (hcell : h.cell pointer index = .ok cell) :
    Effect h (.write pointer index value) (.ok 0) (h.setCell cell value)
  | kept {text : String} {pointer : Word} (hlookup : h.strings.lookup text = some pointer) :
    Effect h (.intern text) (.ok pointer) h
  | fresh {text : String} {start : Nat} (hlookup : h.strings.lookup text = none)
    (hfit : h.firstFit? (stringCells text).length = some start) :
    Effect h (.intern text) (.ok (Int64.ofNat start)) (h.keep text start)

section

variable {h : Heap}

theorem effect_intern (hcapacity : h.capacity ≤ 2 ^ 63)
    (htext : (Text.utf8 text.toList).length < 2 ^ 63) :
    h.Effect (.intern text) (h.surviving (h.intern text)).1 (h.surviving (h.intern text)).2 := by
  cases hintern : h.intern text with
  | error e => exact .failure
  | ok result =>
    obtain ⟨pointer, h'⟩ := result
    rcases intern_eq_ok.1 hintern with ⟨hlookup, rfl⟩ | ⟨hlookup, h₁, hallocate, rfl⟩
    · exact .kept hlookup
    · obtain ⟨hpos, start, hfit, rfl, rfl⟩ := allocate_eq_ok.1 hallocate
      rw [max_length_stringCells htext hpos] at hfit ⊢
      obtain ⟨hroom, -⟩ := firstFit?_eq_some hfit
      have hlength := length_stringCells text
      have hstart : (Int64.ofNat start).toNatClampNeg = start :=
        Int64.toNatClampNeg_ofNat_of_lt (by omega)
      rw [hstart]
      exact .fresh hlookup hfit

/-- A call does one of the things that it can do. -/
theorem effect_perform (hcapacity : h.capacity ≤ 2 ^ 63) {call : Call} (hfits : call.Fits) :
    h.Effect call (h.perform call).1 (h.perform call).2 := by
  cases call with
  | allocate length =>
    rw [perform]
    cases hallocate : h.allocate length with
    | error e => exact .failure
    | ok result =>
      obtain ⟨-, start, hfit, hpointer, hheap⟩ := allocate_eq_ok.1 hallocate
      rw [surviving, hpointer, hheap]
      exact .allocate hfit
  | deallocate pointer =>
    rw [perform]
    cases hdeallocate : h.deallocate pointer with
    | error e => exact .failure
    | ok h' => exact .deallocate hdeallocate
  | read pointer index =>
    rw [perform]
    cases h.read pointer index with
    | error e => exact .failure
    | ok value => exact .read
  | write pointer index value =>
    rw [perform]
    cases hwrite : h.write pointer index value with
    | error e => exact .failure
    | ok h' =>
      obtain ⟨cell, hcell, rfl⟩ := write_eq_ok.1 hwrite
      exact .write hcell
  | intern text =>
    rw [perform, performIntern_eq hcapacity hfits]
    exact effect_intern hcapacity hfits

/-- What every effect keeps holds behind calls. -/
theorem after_induction {P : Heap → Prop} {calls : List Call}
    (hstep : ∀ g call result g', g.Valid → g.capacity ≤ 2 ^ 63 → call ∈ calls →
      g.Effect call result g' → P g → P g')
    (hh : h.Valid) (hcapacity : h.capacity ≤ 2 ^ 63) (hcalls : ∀ call ∈ calls, call.Fits)
    (hstart : P h) : P (h.after calls) := by
  induction calls generalizing h with
  | nil => exact hstart
  | cons call calls ih =>
    obtain ⟨hcall, hcalls⟩ := List.forall_mem_cons.1 hcalls
    obtain ⟨hperform, hsame⟩ := hh.perform hcapacity hcall
    refine ih (fun g call result g' hg hword hmem =>
      hstep g call result g' hg hword (List.mem_cons_of_mem _ hmem))
      hperform (hsame.trans_le hcapacity) hcalls ?_
    exact hstep h call _ _ hh hcapacity (List.mem_cons_self ..)
      (effect_perform hcapacity hcall) hstart

end

/-! ### Transcripts -/

/-- Calls with the results that they have one after another. -/
def transcript (h : Heap) : List Call → List (Call × Except HeapError Word)
  | [] => []
  | call :: calls => (call, (h.perform call).1) :: transcript (h.perform call).2 calls

/-- The blocks behind a call, as far as its result tells. A string that has its pointer already gets
no block. -/
def note (blocks : List Block) : Call × Except HeapError Word → List Block
  | (.allocate length, .ok pointer) =>
    blocks ++ [⟨pointer.toNatClampNeg, max length.toNatClampNeg 1⟩]
  | (.deallocate pointer, .ok _) => blocks.eraseP (·.pointer == pointer)
  | (.intern text, .ok pointer) =>
    if blocks.any (·.pointer == pointer) then blocks
    else blocks ++ [⟨pointer.toNatClampNeg, (Text.utf8 text.toList).length + 1⟩]
  | _ => blocks

/-- The blocks that have been given out and not been taken back, in the order in which they were
given out. -/
def outstanding (t : List (Call × Except HeapError Word)) : List Block :=
  t.foldl note []

/-- The pointer that a call has returned for a string. -/
def internedPointer? : Call × Except HeapError Word → Option Word
  | (.intern _, .ok pointer) => some pointer
  | _ => none

/-- The pointers that have been given out for strings. -/
def internedPointers (t : List (Call × Except HeapError Word)) : List Word :=
  t.filterMap internedPointer?

section

variable {h h' : Heap} {call : Call} {result : Except HeapError Word}

theorem mem_of_lookup (hlookup : h.strings.lookup text = some pointer) :
    (text, pointer) ∈ h.strings := by
  obtain ⟨first, last, hstrings, -⟩ := List.lookup_eq_some_iff.1 hlookup
  rw [hstrings]
  exact List.mem_append_right _ (List.mem_cons_self ..)

/-- A string is added to the table by a call that returns its pointer, and by nothing else. -/
theorem Effect.mem_strings_iff (heffect : h.Effect call result h') (text : String)
    (pointer : Word) : (text, pointer) ∈ h'.strings ↔
      (text, pointer) ∈ h.strings ∨ (call, result) = (.intern text, .ok pointer) := by
  cases heffect with
  | failure | read | allocate | write => simp [reserve, setCell]
  | deallocate hdeallocate =>
    obtain ⟨b, -, hfrees⟩ := frees_of_deallocate hdeallocate
    simp [hfrees.strings_eq]
  | kept hlookup =>
    refine ⟨.inl, fun hor => hor.elim id fun heq => ?_⟩
    cases heq
    exact mem_of_lookup hlookup
  | fresh hlookup hfit =>
    rw [keep, List.mem_cons, or_comm]
    simp [eq_comm]

/-- A string that is in the table keeps its pointer. -/
theorem Effect.lookup_eq (heffect : h.Effect call result h')
    (hlookup : h.strings.lookup text = some pointer) : h'.strings.lookup text = some pointer := by
  cases heffect with
  | failure | read | allocate | write | kept => exact hlookup
  | deallocate hdeallocate =>
    obtain ⟨b, -, hfrees⟩ := frees_of_deallocate hdeallocate
    rwa [hfrees.strings_eq]
  | @fresh text' start hnone hfit =>
    have hne : (text == text') = false := by
      rw [beq_eq_false_iff_ne]
      rintro rfl
      rw [hlookup] at hnone
      cases hnone
    rw [keep, List.lookup_cons, hne]
    exact hlookup

/-- A block begins where none has begun before. -/
theorem Valid.pointer_ne_of_firstFit? (hh : h.Valid) (hcapacity : h.capacity ≤ 2 ^ 63) {size : Nat}
    (hsize : 1 ≤ size) (hfit : h.firstFit? size = some start) (hb : b ∈ h.blocks) :
    b.pointer ≠ Int64.ofNat start := by
  obtain ⟨hroom, hfree⟩ := (hh.firstFit?_eq_some_iff.1 hfit).1
  have hbound := hh.bounded b hb
  have hpositive := hh.positive b hb
  intro heq
  have hsame := congrArg Int64.toNatClampNeg heq
  rw [Block.pointer, Int64.toNatClampNeg_ofNat_of_lt (by omega),
    Int64.toNatClampNeg_ofNat_of_lt (by omega)] at hsame
  exact hfree start (Nat.le_refl _) (by omega) b hb ⟨by omega, by omega⟩

/-- The result of a call tells how the blocks have changed. -/
theorem Effect.blocks_eq (heffect : h.Effect call result h') (hh : h.Valid)
    (hcapacity : h.capacity ≤ 2 ^ 63) : h'.blocks = note h.blocks (call, result) := by
  have hword : ∀ {size start}, h.firstFit? size = some start → 1 ≤ size →
      (Int64.ofNat start).toNatClampNeg = start := fun hfit hsize => by
    have hroom := (hh.firstFit?_eq_some_iff.1 hfit).1.1
    exact Int64.toNatClampNeg_ofNat_of_lt (by omega)
  cases heffect with
  | failure => cases call <;> rfl
  | read | write => rfl
  | allocate hfit => rw [note, hword hfit (le_max_right ..), reserve]
  | deallocate hdeallocate =>
    obtain ⟨-, b, -, rfl⟩ := deallocate_eq_ok.1 hdeallocate
    rfl
  | kept hlookup =>
    obtain ⟨b, hb, hpointer⟩ := hh.strings _ (mem_of_lookup hlookup)
    refine (if_pos (List.any_eq_true.2 ⟨b, hb, ?_⟩)).symm
    exact beq_iff_eq.2 hpointer
  | @fresh text start hlookup hfit =>
    have hsize : 1 ≤ (stringCells text).length := by
      rw [length_stringCells]
      omega
    have hnew : ¬ (h.blocks.any (·.pointer == Int64.ofNat start)) = true := by
      rw [List.any_eq_true]
      rintro ⟨b, hb, heq⟩
      exact hh.pointer_ne_of_firstFit? hcapacity hsize hfit hb (beq_iff_eq.1 heq)
    rw [note, if_neg hnew, hword hfit hsize, ← length_stringCells, keep, reserve]

end

section

variable {h : Heap} {calls : List Call}

/-- The strings behind calls are those whose pointers the calls have returned. -/
theorem mem_strings_after (hh : h.Valid) (hcapacity : h.capacity ≤ 2 ^ 63)
    (hcalls : ∀ call ∈ calls, call.Fits) : (text, pointer) ∈ (h.after calls).strings ↔
      (text, pointer) ∈ h.strings ∨ (.intern text, .ok pointer) ∈ h.transcript calls := by
  induction calls generalizing h with
  | nil => simp [after, transcript]
  | cons call calls ih =>
    obtain ⟨hcall, hcalls⟩ := List.forall_mem_cons.1 hcalls
    obtain ⟨hperform, hsame⟩ := hh.perform hcapacity hcall
    have hstep := (effect_perform hcapacity hcall).mem_strings_iff text pointer
    have hrest := ih hperform (hsame.trans_le hcapacity) hcalls
    rw [transcript, List.mem_cons, ← or_assoc, eq_comm, ← hstep]
    exact hrest

/-- The blocks behind calls are those that the transcript tells of. -/
theorem blocks_after (hh : h.Valid) (hcapacity : h.capacity ≤ 2 ^ 63)
    (hcalls : ∀ call ∈ calls, call.Fits) :
    (h.after calls).blocks = (h.transcript calls).foldl note h.blocks := by
  induction calls generalizing h with
  | nil => rfl
  | cons call calls ih =>
    obtain ⟨hcall, hcalls⟩ := List.forall_mem_cons.1 hcalls
    obtain ⟨hperform, hsame⟩ := hh.perform hcapacity hcall
    have hstep := (effect_perform hcapacity hcall).blocks_eq hh hcapacity
    have hrest := ih hperform (hsame.trans_le hcapacity) hcalls
    rw [transcript, List.foldl_cons, ← hstep]
    exact hrest

theorem mem_internedPointers_iff {t : List (Call × Except HeapError Word)} :
    pointer ∈ internedPointers t ↔ ∃ text, (.intern text, .ok pointer) ∈ t := by
  rw [internedPointers, List.mem_filterMap]
  constructor
  · rintro ⟨entry, hmem, heq⟩
    unfold internedPointer? at heq
    split at heq
    · cases heq
      exact ⟨_, hmem⟩
    · cases heq
  · rintro ⟨text, hmem⟩
    exact ⟨_, hmem, rfl⟩

end

/-! ### The blocks of strings -/

/-- The block of a string with the given pointer. -/
def stringBlock (text : String) (pointer : Word) : Block :=
  ⟨pointer.toNatClampNeg, (Text.utf8 text.toList).length + 1⟩

/-- The strings of a heap have blocks, and no two of them have the same one. -/
structure Interned (h : Heap) : Prop where
  mem_blocks : ∀ text pointer, (text, pointer) ∈ h.strings →
    stringBlock text pointer ∈ h.blocks ∧ (stringBlock text pointer).pointer = pointer
  pointers : (h.strings.map Prod.snd).Nodup

theorem interned_ofCapacity (capacity : Nat) : (ofCapacity capacity).Interned where
  mem_blocks := by simp [ofCapacity]
  pointers := List.nodup_nil

section

variable {h h' : Heap} {call : Call} {result : Except HeapError Word}

theorem Interned.keep (hi : h.Interned) (hh : h.Valid) (hcapacity : h.capacity ≤ 2 ^ 63)
    (hfit : h.firstFit? (stringCells text).length = some start) : (h.keep text start).Interned := by
  have hlength := length_stringCells text
  have hroom := (hh.firstFit?_eq_some_iff.1 hfit).1.1
  have hblock : stringBlock text (Int64.ofNat start) = ⟨start, (stringCells text).length⟩ := by
    rw [stringBlock, hlength, Int64.toNatClampNeg_ofNat_of_lt (by omega)]
  constructor
  · intro text' pointer hmem
    rcases List.mem_cons.1 hmem with heq | hmem
    · cases heq
      rw [hblock]
      exact ⟨List.mem_append_right _ (List.mem_singleton_self _), rfl⟩
    · obtain ⟨hblocks, hpointer⟩ := hi.mem_blocks text' pointer hmem
      exact ⟨List.mem_append_left _ hblocks, hpointer⟩
  · refine List.nodup_cons.2 ⟨fun hmem => ?_, hi.pointers⟩
    obtain ⟨⟨text', pointer⟩, hentry, heq⟩ := List.mem_map.1 hmem
    obtain ⟨hblocks, hpointer⟩ := hi.mem_blocks text' pointer hentry
    exact hh.pointer_ne_of_firstFit? hcapacity (by omega) hfit hblocks (hpointer.trans heq)

/-- A call keeps the blocks of strings. -/
theorem Effect.interned (heffect : h.Effect call result h') (hh : h.Valid)
    (hcapacity : h.capacity ≤ 2 ^ 63) (hi : h.Interned) : h'.Interned := by
  cases heffect with
  | failure | read | kept => exact hi
  | write => exact ⟨hi.mem_blocks, hi.pointers⟩
  | allocate hfit =>
    refine ⟨fun text pointer hmem => ?_, hi.pointers⟩
    obtain ⟨hblocks, hpointer⟩ := hi.mem_blocks text pointer hmem
    exact ⟨List.mem_append_left _ hblocks, hpointer⟩
  | deallocate hdeallocate =>
    obtain ⟨b, hb, hfrees⟩ := frees_of_deallocate hdeallocate
    obtain ⟨-, -, -, hstrings⟩ := exists_deallocate_iff.1 ⟨_, hdeallocate⟩
    refine ⟨fun text pointer hmem => ?_, hfrees.strings_eq ▸ hi.pointers⟩
    rw [hfrees.strings_eq] at hmem
    obtain ⟨hblocks, hpointer⟩ := hi.mem_blocks text pointer hmem
    -- The block that is taken back has a pointer that belongs to no string.
    have hne : stringBlock text pointer ≠ b := by
      rintro rfl
      rw [hb] at hpointer
      exact hstrings text (hpointer ▸ hmem)
    exact ⟨hfrees.blocks_eq ▸ (List.mem_erase_of_ne hne).2 hblocks, hpointer⟩
  | fresh hlookup hfit => exact hi.keep hh hcapacity hfit

end

/-! ### The contents of strings -/

/-- A call writes to an address. -/
def Call.Addresses (address : Word) : Call → Prop
  | .write pointer index _ => pointer + index = address
  | _ => False

instance (address : Word) : DecidablePred (Call.Addresses address)
  | .write pointer index _ => inferInstanceAs (Decidable (pointer + index = address))
  | .allocate _ | .deallocate _ | .read .. | .intern _ => .isFalse id

theorem getElem?_setCells {h : Heap} {values : List Word}
    (hroom : start + values.length ≤ h.capacity) (cell : Nat) :
    (h.setCells start values).cells[cell]? =
      if start ≤ cell ∧ cell < start + values.length then values[cell - start]?
      else h.cells[cell]? := by
  induction values generalizing h start with
  | nil => simp [setCells]
  | cons value values ih =>
    rw [List.length_cons] at hroom ⊢
    have hsize : (h.setCell start value).capacity = h.capacity := Array.size_setIfInBounds
    have hstart : start < h.cells.size := by
      change start < h.capacity
      omega
    rw [setCells, ih (by omega), setCell, Array.getElem?_setIfInBounds]
    by_cases hcell : start = cell
    · subst hcell
      simp [hstart]
    · by_cases hrow : start + 1 ≤ cell ∧ cell < start + 1 + values.length
      · obtain ⟨k, rfl⟩ := Nat.exists_eq_add_of_le hrow.1
        rw [if_pos hrow, if_pos (by omega),
          show start + 1 + k - start = k + 1 by
            omega, Nat.add_sub_cancel_left, List.getElem?_cons_succ]
      · rw [if_neg hrow, if_neg hcell, if_neg (by omega)]

section

variable {h h' : Heap} {call : Call} {result : Except HeapError Word}

theorem add_eq_of_cell {index : Word} (hcell : h.cell pointer index = .ok cell) :
    pointer + index = Int64.ofNat cell := by
  unfold Heap.cell at hcell
  dsimp only at hcell
  split at hcell
  · next haddress =>
    cases hcell
    exact (Int64.ofNat_toNatClampNeg _ haddress.1).symm
  · cases hcell

/-- A call that does not write to a cell of a block leaves what it holds. -/
theorem Effect.getElem?_cells_eq (heffect : h.Effect call result h') (hh : h.Valid)
    (hb : b ∈ h.blocks) (hcontains : b.Contains cell)
    (hcall : ¬ call.Addresses (Int64.ofNat cell)) : h'.cells[cell]? = h.cells[cell]? := by
  cases heffect with
  | failure | read | allocate | kept => rfl
  | deallocate hdeallocate =>
    obtain ⟨c, -, hfrees⟩ := frees_of_deallocate hdeallocate
    rw [hfrees.cells_eq]
  | @write pointer index value cell' hcell =>
    have hne : cell' ≠ cell := by
      rintro rfl
      exact hcall (add_eq_of_cell hcell)
    rw [setCell, Array.getElem?_setIfInBounds_ne hne]
  | fresh hlookup hfit =>
    obtain ⟨hroom, hfree⟩ := (hh.firstFit?_eq_some_iff.1 hfit).1
    rw [keep, getElem?_setCells (h := h.reserve _ _) hroom,
      if_neg fun hrow => hfree cell hrow.1 hrow.2 b hb hcontains]
    rfl

/-- The pointer that a call returns for a string is in the table behind it. -/
theorem Effect.lookup_intern (heffect : h.Effect (.intern text) (.ok pointer) h') :
    h'.strings.lookup text = some pointer := by
  cases heffect with
  | kept hlookup => exact hlookup
  | fresh hlookup hfit => exact List.lookup_cons_self

end

/-! ### A string that is kept -/

/-- A heap keeps a string under a pointer. -/
structure Holds (h : Heap) (text : String) (pointer : Word) : Prop where
  interned : h.Interned
  lookup_eq : h.strings.lookup text = some pointer

section

variable {h h' : Heap} {text : String} {pointer : Word}
variable {k : Nat} {value : Word}

/-- A call leaves a string under its pointer. -/
theorem Holds.of_effect (hholds : h.Holds text pointer) {call : Call}
    {result : Except HeapError Word} (heffect : h.Effect call result h') (hh : h.Valid)
    (hcapacity : h.capacity ≤ 2 ^ 63) : h'.Holds text pointer :=
  ⟨heffect.interned hh hcapacity hholds.interned, heffect.lookup_eq hholds.lookup_eq⟩

theorem Holds.mem_blocks (hholds : h.Holds text pointer) :
    stringBlock text pointer ∈ h.blocks ∧ (stringBlock text pointer).pointer = pointer :=
  hholds.interned.mem_blocks text pointer (mem_of_lookup hholds.lookup_eq)

theorem Holds.perform_intern (hholds : h.Holds text pointer) :
    h.perform (.intern text) = (.ok pointer, h) := by
  rw [perform, performIntern, hholds.lookup_eq]

/-- No other string gets the pointer of a string. -/
theorem Holds.perform_intern_ne (hholds : h.Holds text pointer) (hh : h.Valid)
    (hcapacity : h.capacity ≤ 2 ^ 63) {other : String} (hne : other ≠ text)
    (hfits : (Call.intern other).Fits) : (h.perform (.intern other)).1 ≠ .ok pointer := by
  intro hpointer
  have heffect := effect_perform hcapacity hfits
  rw [hpointer] at heffect
  have hmem := mem_of_lookup (hholds.of_effect heffect hh hcapacity).lookup_eq
  have hother := mem_of_lookup heffect.lookup_intern
  have hpointers := (heffect.interned hh hcapacity hholds.interned).pointers
  have heq := List.inj_on_of_nodup_map hpointers hother hmem rfl
  exact hne (congrArg Prod.fst heq)

theorem Holds.perform_deallocate (hholds : h.Holds text pointer) :
    h.perform (.deallocate pointer) = (.error (.invalidPointer pointer), h) := by
  have hinterned : h.isInterned pointer = true :=
    List.any_eq_true.2 ⟨_, mem_of_lookup hholds.lookup_eq, beq_self_eq_true _⟩
  rw [perform, deallocate, if_pos hinterned]
  rfl

theorem Valid.disjoint_of_mem_erase (hh : h.Valid) (hb : b ∈ h.blocks) :
    ∀ c ∈ h.blocks.erase b, c.Disjoint b := by
  have hpairwise := ((List.perm_cons_erase hb).pairwise_iff fun h => Block.Disjoint.symm h).1
    hh.disjoint
  exact fun c hc => ((List.pairwise_cons.1 hpairwise).1 c hc).symm

theorem contains_stringBlock (hvalue : (stringCells text)[k]? = some value) :
    (stringBlock text pointer).Contains (pointer.toNatClampNeg + k) := by
  obtain ⟨hk, -⟩ := List.getElem?_eq_some_iff.1 hvalue
  rw [length_stringCells] at hk
  exact ⟨Nat.le_add_right .., Nat.add_lt_add_left hk _⟩

/-- A string that is new is written to its block. -/
theorem Effect.getElem?_cells_intern (heffect : h.Effect (.intern text) (.ok pointer) h')
    (hh : h.Valid) (hcapacity : h.capacity ≤ 2 ^ 63) (hnew : h.strings.lookup text = none)
    (hvalue : (stringCells text)[k]? = some value) :
    h'.cells[pointer.toNatClampNeg + k]? = some value := by
  obtain ⟨hk, -⟩ := List.getElem?_eq_some_iff.1 hvalue
  cases heffect with
  | kept hlookup =>
    rw [hnew] at hlookup
    cases hlookup
  | @fresh _ start hlookup hfit =>
    have hroom := (hh.firstFit?_eq_some_iff.1 hfit).1.1
    rw [Int64.toNatClampNeg_ofNat_of_lt (by omega), keep,
      getElem?_setCells (h := h.reserve _ _) hroom, if_pos (by omega), Nat.add_sub_cancel_left]
    exact hvalue

theorem Holds.read_eq (hholds : h.Holds text pointer) (hh : h.Valid)
    (hcapacity : h.capacity ≤ 2 ^ 63) (hvalue : (stringCells text)[k]? = some value)
    (hcell : h.cells[pointer.toNatClampNeg + k]? = some value) :
    h.read pointer (Int64.ofNat k) = .ok value := by
  obtain ⟨hblocks, hpointer⟩ := hholds.mem_blocks
  have hword : Int64.ofNat pointer.toNatClampNeg = pointer := hpointer
  have hcontains : (stringBlock text pointer).Contains (pointer.toNatClampNeg + k) :=
    contains_stringBlock hvalue
  have haddress := cell_ofNat hcapacity (hcontains.2.trans_le (hh.bounded _ hblocks))
  rw [hword] at haddress
  rw [read, haddress]
  simp [Array.getD_eq_getD_getElem?, hcell]

end

/-! ### Behind calls -/

section

variable {h : Heap} {calls : List Call} (hh : h.Valid) (hcapacity : h.capacity ≤ 2 ^ 63)
  (hcalls : ∀ call ∈ calls, call.Fits)
include hh hcapacity hcalls

theorem Interned.after (hi : h.Interned) : (h.after calls).Interned :=
  after_induction (P := Interned)
    (fun _ _ _ _ hg hword _ heffect hi => heffect.interned hg hword hi) hh hcapacity hcalls hi

theorem Holds.after (hholds : h.Holds text pointer) : (h.after calls).Holds text pointer :=
  after_induction (P := fun g => g.Holds text pointer)
    (fun _ _ _ _ hg hword _ heffect hholds => hholds.of_effect heffect hg hword) hh hcapacity
    hcalls hholds

/-- A cell of a string holds what it held as long as no call writes to it. -/
theorem Holds.getElem?_cells_after (hholds : h.Holds text pointer)
    (hcontains : (stringBlock text pointer).Contains cell)
    (hwrites : ∀ call ∈ calls, ¬ call.Addresses (Int64.ofNat cell)) :
    (h.after calls).cells[cell]? = h.cells[cell]? := by
  -- That the block does not move or go away on the way is part of the invariant.
  refine (after_induction (P := fun g => g.Holds text pointer ∧ g.cells[cell]? = h.cells[cell]?)
    (fun g call result g' hg hword hmem heffect hboth => ?_) hh hcapacity hcalls ⟨hholds, rfl⟩).2
  obtain ⟨hkept, hcell⟩ := hboth
  exact ⟨hkept.of_effect heffect hg hword,
    (heffect.getElem?_cells_eq hg hkept.mem_blocks.1 hcontains (hwrites call hmem)).trans hcell⟩

end

/-- The leaks behind calls are the outstanding blocks whose pointers have not been returned for
strings. -/
theorem leaks_after {h : Heap} (hh : h.Valid) (hcapacity : h.capacity ≤ 2 ^ 63)
    (hstrings : h.strings = []) {calls : List Call} (hcalls : ∀ call ∈ calls, call.Fits) :
    (h.after calls).leaks =
      (h.after calls).blocks.filter (·.pointer ∉ internedPointers (h.transcript calls)) := by
  refine List.filter_congr fun b _ => ?_
  have hinterned : (h.after calls).isInterned b.pointer = false ↔
      b.pointer ∉ internedPointers (h.transcript calls) := by
    rw [isInterned_eq_false_iff, mem_internedPointers_iff, not_exists]
    simp only [mem_strings_after hh hcapacity hcalls, hstrings, List.not_mem_nil, false_or]
  by_cases hmem : b.pointer ∈ internedPointers (h.transcript calls)
  · simpa [hmem] using hinterned
  · simpa [hmem] using hinterned

/-- A string stays as it is. Whatever calls are made on a heap, once a call has returned a pointer
for a string, every later one returns the same pointer and leaves the heap as it is, and no other
string gets it. The block of the string, which has one cell more than the string has bytes, stays
outstanding: its pointer cannot be given back, and no other block overlaps it. From the first such
call on, each of its cells holds what belongs there, the bytes and a zero behind them, until a call
writes to this cell. The leaks are the outstanding blocks but for those of strings, in the order in
which they were given out. -/
theorem interning_stable {capacity : Nat} (hcapacity : capacity ≤ 2 ^ 63) {calls : List Call}
    (hcalls : ∀ call ∈ calls, call.Fits) {h₀ h : Heap} (hh₀ : h₀ = ofCapacity capacity)
    (hh : h = h₀.after calls) :
    h.blocks = outstanding (h₀.transcript calls) ∧
    h.leaks = h.blocks.filter (·.pointer ∉ internedPointers (h₀.transcript calls)) ∧
    ∀ before text later, calls = before ++ .intern text :: later →
      ∀ pointer, ((h₀.after before).perform (.intern text)).1 = .ok pointer →
        ∃ b : Block, b.pointer = pointer ∧ b.length = (Text.utf8 text.toList).length + 1 ∧
          h.perform (.intern text) = (.ok pointer, h) ∧
          (∀ other, other ≠ text → (Call.intern other).Fits →
            (h.perform (.intern other)).1 ≠ .ok pointer) ∧
          b ∈ h.blocks ∧ h.perform (.deallocate pointer) = (.error (.invalidPointer pointer), h) ∧
          (∀ c ∈ h.blocks.erase b, c.Disjoint b) ∧
          ((∀ earlier, (.intern text, .ok earlier) ∉ h₀.transcript before) →
            ∀ k value, (stringCells text)[k]? = some value →
              (∀ call ∈ later, ¬ call.Addresses (pointer + Int64.ofNat k)) →
                h.read pointer (Int64.ofNat k) = .ok value) := by
  have hvalid₀ : h₀.Valid := hh₀ ▸ valid_ofCapacity capacity
  have hword₀ : h₀.capacity ≤ 2 ^ 63 := by
    rw [hh₀]
    exact Array.size_replicate.trans_le hcapacity
  have hinterned₀ : h₀.Interned := hh₀ ▸ interned_ofCapacity capacity
  have hstrings₀ : h₀.strings = [] := hh₀ ▸ rfl
  have hblocks₀ : h₀.blocks = [] := hh₀ ▸ rfl
  have hvalid : h.Valid := hh ▸ (hvalid₀.after hword₀ hcalls).1
  have hword : h.capacity ≤ 2 ^ 63 := hh ▸ (hvalid₀.after hword₀ hcalls).2.trans_le hword₀
  refine ⟨?_, hh ▸ leaks_after hvalid₀ hword₀ hstrings₀ hcalls,
    fun before text later hsplit pointer hpointer => ?_⟩
  · rw [hh, blocks_after hvalid₀ hword₀ hcalls, hblocks₀]
    rfl
  · rw [hsplit] at hcalls
    obtain ⟨hbefore, hrest⟩ := List.forall_mem_append.1 hcalls
    obtain ⟨hintern, hlater⟩ := List.forall_mem_cons.1 hrest
    obtain ⟨hvalid₁, hsame₁⟩ := hvalid₀.after hword₀ hbefore
    have hword₁ := hsame₁.trans_le hword₀
    obtain ⟨hvalid₂, hsame₂⟩ := hvalid₁.perform hword₁ hintern
    have hword₂ := hsame₂.trans_le hword₁
    have heffect := effect_perform hword₁ hintern
    rw [hpointer] at heffect
    have hholds₂ : ((h₀.after before).perform (.intern text)).2.Holds text pointer :=
      ⟨heffect.interned hvalid₁ hword₁ (hinterned₀.after hvalid₀ hword₀ hbefore),
        heffect.lookup_intern⟩
    have hafter : h = ((h₀.after before).perform (.intern text)).2.after later := by
      rw [hh, hsplit]
      exact List.foldl_append
    have hholds : h.Holds text pointer := hafter ▸ hholds₂.after hvalid₂ hword₂ hlater
    obtain ⟨hmem, hblock⟩ := hholds.mem_blocks
    refine ⟨stringBlock text pointer, hblock, rfl, hholds.perform_intern,
      fun other => hholds.perform_intern_ne hvalid hword, hmem, hholds.perform_deallocate,
      hvalid.disjoint_of_mem_erase hmem, fun hfirst k value hvalue hwrites => ?_⟩
    have hnew : (h₀.after before).strings.lookup text = none := by
      refine Option.eq_none_iff_forall_ne_some.2 fun earlier hlookup => ?_
      have hkept := (mem_strings_after hvalid₀ hword₀ hbefore).1 (mem_of_lookup hlookup)
      rw [hstrings₀] at hkept
      exact hfirst earlier (hkept.resolve_left List.not_mem_nil)
    have haddress : Int64.ofNat (pointer.toNatClampNeg + k) = pointer + Int64.ofNat k :=
      (Int64.ofNat_add ..).trans (congrArg (· + Int64.ofNat k) hblock)
    rw [← haddress] at hwrites
    refine hholds.read_eq hvalid hword hvalue ?_
    rw [hafter, hholds₂.getElem?_cells_after hvalid₂ hword₂ hlater (contains_stringBlock hvalue)
      hwrites]
    exact heffect.getElem?_cells_intern hvalid₁ hword₁ hnew hvalue

/-- Calls that keep a string between blocks, write to its end, and ask for it again. -/
def letterCalls : List Call :=
  [.allocate 2, .intern "a", .deallocate 0, .allocate 1, .write 2 1 7, .deallocate 2, .intern "a"]

/-- Behind `letterCalls` the letter is still there, although the zero behind it has been written
over, and only the block of one cell is a leak. -/
theorem interning_stable_letterCalls : (∀ call ∈ letterCalls, call.Fits) ∧
    letterCalls = [.allocate 2] ++
      .intern "a" :: [.deallocate 0, .allocate 1, .write 2 1 7, .deallocate 2, .intern "a"] ∧
    (((ofCapacity 4).after [.allocate 2]).perform (.intern "a")).1 = .ok 2 ∧
    ((ofCapacity 4).after letterCalls).read 2 0 = .ok 97 ∧
    (((ofCapacity 4).after letterCalls).perform (.intern "a")).1 = .ok 2 ∧
    ((ofCapacity 4).after letterCalls).leaks = [⟨0, 1⟩] := by
  have hcalls : ∀ call ∈ letterCalls, call.Fits := by decide
  obtain ⟨hblocks, hleaks, hstable⟩ := interning_stable (show 4 ≤ 2 ^ 63 by decide) hcalls rfl rfl
  have hpointer : (((ofCapacity 4).after [.allocate 2]).perform (.intern "a")).1 = .ok 2 := by
    rfl
  obtain ⟨b, hb, -, hagain, -, -, -, -, hread⟩ := hstable _ _ _ rfl 2 hpointer
  refine ⟨hcalls, rfl, hpointer, ?_, ?_, ?_⟩
  · refine hread (fun earlier hmem => ?_) 0 97 rfl (by decide)
    cases List.mem_singleton.1 hmem
  · rw [hagain]
  · rw [hleaks, hblocks]
    rfl

end Firestorm.Heap
