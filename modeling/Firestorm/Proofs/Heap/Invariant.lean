import Mathlib.Algebra.BigOperators.Group.List.Basic
import Mathlib.Algebra.GroupWithZero.Nat
import Mathlib.Data.Nat.Basic
import Firestorm.Proofs.Fallible
import Firestorm.Proofs.Heap.Operations

/-!
# The invariant of the heap

The occupied cells, the blocks and the strings of a heap are kept apart and changed by one operation
after another. They always fit together: blocks are rows of cells of the heap that do not overlap,
the occupied cells are the cells of blocks, and strings have blocks.

An operation may fail. It must not have changed the heap before it does, although a string takes
several operations: it gets a block, its bytes are written one by one, and it is noted at the end.

## Main definitions

* `Heap.Block.Contains`, `Heap.Block.Disjoint`, `Heap.Valid`, `Heap.Call`, `Heap.perform`,
  `Heap.after`.

## Main results

* `Heap.performIntern_eq`, `Heap.Valid.perform`.
* `Heap.valid_after`: the invariant holds behind all calls.
-/

namespace Firestorm.Heap

variable {start : Nat} {text : String}

/-! ### Blocks -/

/-- A cell belongs to a block. -/
def Block.Contains (b : Block) (cell : Nat) : Prop :=
  b.start ≤ cell ∧ cell < b.start + b.length

/-- Two blocks have no cell in common, and one lies behind the other. -/
def Block.Disjoint (b c : Block) : Prop :=
  b.start + b.length ≤ c.start ∨ c.start + c.length ≤ b.start

variable {b c : Block}

theorem Block.Disjoint.symm (h : b.Disjoint c) : c.Disjoint b := Or.symm h

theorem Block.Disjoint.not_contains (h : b.Disjoint c) {cell : Nat} (hb : b.Contains cell) :
    ¬ c.Contains cell := by
  obtain ⟨hstart, hend⟩ := hb
  rintro ⟨hstart', hend'⟩
  rcases h with h | h <;> omega

/-- Blocks that have no cell in common do not overlap. -/
theorem Block.disjoint_of_not_contains (hb : 1 ≤ b.length) (hc : 1 ≤ c.length)
    (h : ∀ cell, b.Contains cell → ¬ c.Contains cell) : b.Disjoint c := by
  by_contra hoverlap
  obtain ⟨hbc, hcb⟩ := not_or.1 hoverlap
  exact h (max b.start c.start) ⟨by omega, by omega⟩ ⟨by omega, by omega⟩

/-- The occupied cells, the blocks and the strings of a heap fit together. -/
structure Valid (h : Heap) : Prop where
  size_used : h.used.size = h.capacity
  positive : ∀ b ∈ h.blocks, 1 ≤ b.length
  bounded : ∀ b ∈ h.blocks, b.start + b.length ≤ h.capacity
  disjoint : h.blocks.Pairwise Block.Disjoint
  occupied : ∀ cell, h.used[cell]? = some true ↔ ∃ b ∈ h.blocks, b.Contains cell
  usedCount_eq : h.usedCount = (h.blocks.map (·.length)).sum
  strings : ∀ entry ∈ h.strings, ∃ b ∈ h.blocks, b.pointer = entry.2

theorem valid_ofCapacity (capacity : Nat) : (ofCapacity capacity).Valid where
  size_used := by simp [ofCapacity, Heap.capacity]
  positive := by simp [ofCapacity]
  bounded := by simp [ofCapacity]
  disjoint := List.Pairwise.nil
  occupied cell := by simp [ofCapacity, Array.getElem?_replicate]
  usedCount_eq := by simp [ofCapacity, usedCount, Array.count_replicate]
  strings := by simp [ofCapacity]

namespace Valid

variable {h : Heap} (hh : h.Valid)
include hh

/-- What the cells hold does not matter. -/
theorem withCells {cells : Array Word} (hsize : cells.size = h.cells.size) :
    { h with cells := cells }.Valid where
  size_used := hh.size_used.trans hsize.symm
  positive := hh.positive
  bounded b hb := (hh.bounded b hb).trans_eq hsize.symm
  disjoint := hh.disjoint
  occupied := hh.occupied
  usedCount_eq := hh.usedCount_eq
  strings := hh.strings

theorem withString (hb : b ∈ h.blocks) (text : String) :
    { h with strings := (text, b.pointer) :: h.strings }.Valid where
  size_used := hh.size_used
  positive := hh.positive
  bounded := hh.bounded
  disjoint := hh.disjoint
  occupied := hh.occupied
  usedCount_eq := hh.usedCount_eq
  strings entry hentry := by
    rcases List.mem_cons.1 hentry with rfl | hentry
    · exact ⟨b, hb, rfl⟩
    · exact hh.strings entry hentry

/-- A row of free cells can be given out. -/
theorem reserve {length : Nat} (hlength : 1 ≤ length) (hroom : start + length ≤ h.capacity)
    (hfree : ∀ k < length, h.used[start + k]? = some false) : (h.reserve start length).Valid := by
  have hnew : ∀ b ∈ h.blocks, b.Disjoint ⟨start, length⟩ := by
    intro b hb
    refine Block.disjoint_of_not_contains (hh.positive b hb) hlength fun cell hcell hcell' => ?_
    have hused := (hh.occupied cell).2 ⟨b, hb, hcell⟩
    have hunused := hfree (cell - start) (by have := hcell'.2; dsimp only at this; omega)
    rw [Nat.add_sub_cancel' hcell'.1, hused] at hunused
    cases hunused
  refine ⟨?_, ?_, ?_, ?_, fun cell => ?_, ?_, ?_⟩
  · exact (size_mark ..).trans hh.size_used
  · exact List.forall_mem_append.2 ⟨hh.positive, by simpa using hlength⟩
  · exact List.forall_mem_append.2 ⟨hh.bounded, by simpa using hroom⟩
  · refine List.pairwise_append.2 ⟨hh.disjoint, List.pairwise_singleton .., fun b hb c hc => ?_⟩
    rw [List.mem_singleton.1 hc]
    exact hnew b hb
  · change (mark h.used start true length)[cell]? = some true ↔
      ∃ b ∈ h.blocks ++ [⟨start, length⟩], b.Contains cell
    rw [getElem?_mark]
    simp only [List.mem_append, List.mem_singleton, or_and_right, exists_or, exists_eq_left,
      ← hh.occupied cell]
    split
    · next hcell =>
      have hsize : cell < h.used.size := by rw [hh.size_used]; omega
      simp [hsize, Block.Contains, hcell]
    · next hcell => simp [Block.Contains, hcell]
  · change (mark h.used start true length).count true = _
    rw [(count_mark hfree).1]
    simp [Heap.reserve, ← hh.usedCount_eq, usedCount]
  · intro entry hentry
    obtain ⟨b, hb, hpointer⟩ := hh.strings entry hentry
    exact ⟨b, List.mem_append_left _ hb, hpointer⟩

/-- A block that holds no string can be taken back. -/
theorem release {pointer : Word} (hinterned : h.isInterned pointer = false)
    (hb : h.blocks.find? (·.pointer == pointer) = some b) : { h with
      used := mark h.used b.start false b.length
      blocks := h.blocks.eraseP (·.pointer == pointer) }.Valid := by
  obtain ⟨hpointer, first, last, hblocks, hfirst⟩ := List.find?_eq_some_iff_append.1 hb
  have herase : h.blocks.eraseP (·.pointer == pointer) = first ++ last := by
    rw [hblocks, List.eraseP_append_right _ (by simpa using hfirst)]
    simp [hpointer]
  have hperm : h.blocks.Perm (b :: (first ++ last)) := hblocks ▸ List.perm_middle
  have hsubset : first ++ last ⊆ h.blocks := fun c hc => hperm.mem_iff.2 (List.mem_cons_of_mem b hc)
  have hmem : b ∈ h.blocks := hperm.mem_iff.2 (List.mem_cons_self ..)
  obtain ⟨hothers, hdisjoint⟩ := List.pairwise_cons.1
    ((hperm.pairwise_iff fun h => Block.Disjoint.symm h).1 hh.disjoint)
  have hused : ∀ k < b.length, h.used[b.start + k]? = some !false := fun k hk =>
    (hh.occupied _).2 ⟨b, hmem, Nat.le_add_right .., Nat.add_lt_add_left hk _⟩
  rw [herase]
  refine ⟨?_, ?_, ?_, hdisjoint, fun cell => ?_, ?_, ?_⟩
  · exact (size_mark ..).trans hh.size_used
  · exact fun c hc => hh.positive c (hsubset hc)
  · exact fun c hc => hh.bounded c (hsubset hc)
  · change (mark h.used b.start false b.length)[cell]? = some true ↔ ∃ c ∈ first ++ last,
      c.Contains cell
    rw [getElem?_mark]
    split
    · next hcell =>
      -- The cell belonged to the block, hence to no other one.
      have hnone : ¬ ∃ c ∈ first ++ last, c.Contains cell := fun ⟨c, hc, hcontains⟩ =>
        (hothers c hc).not_contains hcell hcontains
      refine iff_of_false ?_ hnone
      cases h.used[cell]? <;> simp
    · next hcell =>
      rw [hh.occupied cell]
      simp only [hperm.mem_iff, List.mem_cons, or_and_right, exists_or, exists_eq_left]
      exact or_iff_right hcell
  · have hcount := (count_mark hused).2
    have hsum := (hperm.map (·.length)).sum_eq
    have hbefore := hh.usedCount_eq
    rw [hsum, List.map_cons, List.sum_cons] at hbefore
    change (mark h.used b.start false b.length).count true = ((first ++ last).map (·.length)).sum
    change (mark h.used b.start false b.length).count true + b.length = h.usedCount at hcount
    omega
  · intro entry hentry
    obtain ⟨c, hc, hentryPointer⟩ := hh.strings entry hentry
    refine ⟨c, ?_, hentryPointer⟩
    refine (List.mem_cons.1 (hperm.mem_iff.1 hc)).resolve_left ?_
    rintro rfl
    refine Bool.eq_false_iff.1 hinterned (List.any_eq_true.2 ⟨entry, hentry, ?_⟩)
    rwa [← hentryPointer]

end Valid

/-! ### Calls -/

/-- A call of an operation. -/
inductive Call
  | allocate (length : Word)
  | deallocate (pointer : Word)
  | read (pointer index : Word)
  | write (pointer index value : Word)
  | intern (text : String)

/-- A text takes less than the bytes that words can count. -/
def Call.Fits : Call → Prop
  | .intern text => (Text.utf8 text.toList).length < 2 ^ 63
  | _ => True

instance : DecidablePred Call.Fits
  | .intern text => inferInstanceAs (Decidable ((Text.utf8 text.toList).length < 2 ^ 63))
  | .allocate _ | .deallocate _ | .read .. | .write .. => .isTrue trivial

/-- The result of an operation and the heap behind it. An operation that fails has changed nothing:
giving out a block, taking one back and writing a cell check before they change the heap. -/
def surviving (h : Heap) : Except HeapError (Word × Heap) → Except HeapError Word × Heap
  | .ok (value, h') => (.ok value, h')
  | .error e => (.error e, h)

/-- Writes contents one after another, beginning at an index behind a pointer. What has been written
before a failure stays. -/
def writeAll (pointer : Word) : (index : Nat) → List Word → Heap → Except HeapError Unit × Heap
  | _, [], h => (.ok (), h)
  | index, value :: values, h =>
    match h.write pointer (Int64.ofNat index) value with
    | .ok h' => writeAll pointer (index + 1) values h'
    | .error e => (.error e, h)

/-- The operations that a string takes, one after another. -/
def performIntern (h : Heap) (text : String) : Except HeapError Word × Heap :=
  match h.strings.lookup text with
  | some pointer => (.ok pointer, h)
  | none =>
    match h.allocate (Int64.ofNat (stringCells text).length) with
    | .error e => (.error e, h)
    | .ok (pointer, h') =>
      match writeAll pointer 0 (stringCells text) h' with
      | (.error e, h') => (.error e, h')
      | (.ok (), h') => (.ok pointer, { h' with strings := (text, pointer) :: h'.strings })

/-- The result of a call and the heap behind it. -/
def perform (h : Heap) : Call → Except HeapError Word × Heap
  | .allocate length => h.surviving (h.allocate length)
  | .deallocate pointer => h.surviving ((h.deallocate pointer).map fun h' => (0, h'))
  | .read pointer index => (h.read pointer index, h)
  | .write pointer index value => h.surviving ((h.write pointer index value).map fun h' => (0, h'))
  | .intern text => h.performIntern text

/-- The heap behind calls. -/
def after (h : Heap) (calls : List Call) : Heap :=
  calls.foldl (fun h call => (h.perform call).2) h

/-! ### Strings -/

theorem length_stringCells (text : String) :
    (stringCells text).length = (Text.utf8 text.toList).length + 1 := by
  simp [stringCells]

/-- A string gets as many cells as it has contents, if words can count them at all. -/
theorem max_length_stringCells (htext : (Text.utf8 text.toList).length < 2 ^ 63)
    (hpos : ¬ Int64.ofNat (stringCells text).length < 0) :
    max (Int64.ofNat (stringCells text).length).toNatClampNeg 1 = (stringCells text).length := by
  have hlength := length_stringCells text
  have hlt : (stringCells text).length < 2 ^ 63 := by
    by_contra hlarge
    have heq : (stringCells text).length = 2 ^ 63 := by omega
    rw [heq] at hpos
    exact hpos (by decide)
  rw [Int64.toNatClampNeg_ofNat_of_lt hlt]
  omega

section

variable {h : Heap} (hcapacity : h.capacity ≤ 2 ^ 63)
include hcapacity

/-- A pointer leads to the cells behind the start of its block. -/
theorem cell_ofNat {index : Nat} (hroom : start + index < h.capacity) :
    h.cell (Int64.ofNat start) (Int64.ofNat index) = .ok (start + index) := by
  have hlt : start + index < 2 ^ 63 := by omega
  have hnat : (Int64.ofNat (start + index)).toNatClampNeg = start + index :=
    Int64.toNatClampNeg_ofNat_of_lt hlt
  have hpos : 0 ≤ Int64.ofNat (start + index) := by
    rw [Int64.le_iff_toInt_le, Int64.toInt_ofNat_of_lt hlt]
    exact Int.natCast_nonneg _
  unfold cell
  rw [← Int64.ofNat_add]
  simp only [hnat, hpos, hroom, and_self, if_true]

/-- Contents for which there is room are written. -/
theorem writeAll_eq {index : Nat} {values : List Word}
    (hroom : start + index + values.length ≤ h.capacity) :
    writeAll (Int64.ofNat start) index values h = (.ok (), h.setCells (start + index) values) := by
  induction values generalizing h index with
  | nil => rfl
  | cons value values ih =>
    rw [List.length_cons] at hroom
    have hsize : (h.setCell (start + index) value).capacity = h.capacity := Array.size_setIfInBounds
    have hwrite : h.write (Int64.ofNat start) (Int64.ofNat index) value =
        .ok (h.setCell (start + index) value) := by
      rw [write, cell_ofNat hcapacity (by omega)]
    rw [writeAll, hwrite]
    exact ih (by omega) (by omega)

/-- The operations that a string takes fail only before they have changed anything. -/
theorem performIntern_eq (htext : (Text.utf8 text.toList).length < 2 ^ 63) :
    h.performIntern text = h.surviving (h.intern text) := by
  rw [performIntern, intern]
  cases h.strings.lookup text with
  | some pointer => rfl
  | none =>
    cases hallocate : h.allocate (Int64.ofNat (stringCells text).length) with
    | error e => simp only [hallocate]; rfl
    | ok result =>
      obtain ⟨pointer, h'⟩ := result
      obtain ⟨hpos, start, hfit, rfl, rfl⟩ := allocate_eq_ok.1 hallocate
      rw [max_length_stringCells htext hpos] at hfit hallocate ⊢
      obtain ⟨hroom, -⟩ := firstFit?_eq_some hfit
      have hlength := length_stringCells text
      have hstart : (Int64.ofNat start).toNatClampNeg = start :=
        Int64.toNatClampNeg_ofNat_of_lt (by omega)
      have hwrite : writeAll (Int64.ofNat start) 0 (stringCells text)
          (h.reserve start (stringCells text).length) =
            (.ok (), (h.reserve start (stringCells text).length).setCells (start + 0)
              (stringCells text)) :=
        writeAll_eq (h := h.reserve start (stringCells text).length) hcapacity hroom
      simp only [hwrite, hallocate, hstart]
      rfl

end

/-! ### The invariant behind calls -/

section

variable {h h' : Heap}
variable {pointer : Word}

theorem Valid.allocate (hh : h.Valid) {length : Word}
    (hallocate : h.allocate length = .ok (pointer, h')) :
    h'.Valid ∧ h'.capacity = h.capacity ∧ ∃ b ∈ h'.blocks, b.pointer = pointer := by
  obtain ⟨-, start, hfit, rfl, rfl⟩ := allocate_eq_ok.1 hallocate
  obtain ⟨hroom, hfree⟩ := firstFit?_eq_some hfit
  exact ⟨hh.reserve (le_max_right ..) hroom hfree, rfl, _,
    List.mem_append_right _ (List.mem_singleton_self _), rfl⟩

theorem Valid.intern (hh : h.Valid) (hintern : h.intern text = .ok (pointer, h')) :
    h'.Valid ∧ h'.capacity = h.capacity := by
  rcases intern_eq_ok.1 hintern with ⟨-, rfl⟩ | ⟨-, h₁, hallocate, rfl⟩
  · exact ⟨hh, rfl⟩
  · obtain ⟨hh₁, hcapacity, b, hb, rfl⟩ := hh.allocate hallocate
    have hcells := capacity_setCells h₁ b.pointer.toNatClampNeg (stringCells text)
    exact ⟨(hh₁.withCells hcells).withString hb text, hcells.trans hcapacity⟩

theorem Valid.deallocate (hh : h.Valid) (hdeallocate : h.deallocate pointer = .ok h') :
    h'.Valid ∧ h'.capacity = h.capacity := by
  obtain ⟨hinterned, b, hb, rfl⟩ := deallocate_eq_ok.1 hdeallocate
  exact ⟨hh.release hinterned hb, rfl⟩

theorem Valid.surviving (hh : h.Valid) {result : Except HeapError (Word × Heap)}
    (hok : ∀ value h', result = .ok (value, h') → h'.Valid ∧ h'.capacity = h.capacity) :
    (h.surviving result).2.Valid ∧ (h.surviving result).2.capacity = h.capacity := by
  cases result with
  | error e => exact ⟨hh, rfl⟩
  | ok result => exact hok result.1 result.2 rfl

/-- A call keeps the invariant and the number of cells. -/
theorem Valid.perform (hh : h.Valid) (hcapacity : h.capacity ≤ 2 ^ 63) {call : Call}
    (hfits : call.Fits) :
    (h.perform call).2.Valid ∧ (h.perform call).2.capacity = h.capacity := by
  cases call with
  | allocate length =>
    refine hh.surviving fun pointer h' hallocate => ?_
    exact ⟨(hh.allocate hallocate).1, (hh.allocate hallocate).2.1⟩
  | deallocate pointer =>
    refine hh.surviving fun value h' hmap => ?_
    obtain ⟨h₁, hdeallocate, heq⟩ := Fallible.except_map_eq_ok.1 hmap
    cases heq
    exact hh.deallocate hdeallocate
  | read pointer index => exact ⟨hh, rfl⟩
  | write pointer index value =>
    refine hh.surviving fun _ h' hmap => ?_
    obtain ⟨h₁, hwrite, heq⟩ := Fallible.except_map_eq_ok.1 hmap
    cases heq
    obtain ⟨cell, -, rfl⟩ := write_eq_ok.1 hwrite
    exact ⟨hh.withCells Array.size_setIfInBounds, Array.size_setIfInBounds⟩
  | intern text =>
    rw [Heap.perform, performIntern_eq hcapacity hfits]
    exact hh.surviving fun pointer h' => hh.intern

/-- A call that fails leaves the heap as it was. -/
theorem eq_of_perform_error (hcapacity : h.capacity ≤ 2 ^ 63) {call : Call} (hfits : call.Fits)
    {e : HeapError} (herror : h.perform call = (.error e, h')) : h' = h := by
  have hsurviving : ∀ result, h.surviving result = (.error e, h') → h' = h := by
    rintro (_ | _) heq <;> cases heq
    rfl
  cases call with
  | allocate _ | deallocate _ | write _ _ _ => exact hsurviving _ herror
  | read pointer index => exact (congrArg Prod.snd herror).symm
  | intern text =>
    rw [perform, performIntern_eq hcapacity hfits] at herror
    exact hsurviving _ herror

theorem Valid.after (hh : h.Valid) (hcapacity : h.capacity ≤ 2 ^ 63) {calls : List Call}
    (hcalls : ∀ call ∈ calls, call.Fits) :
    (h.after calls).Valid ∧ (h.after calls).capacity = h.capacity := by
  induction calls generalizing h with
  | nil => exact ⟨hh, rfl⟩
  | cons call calls ih =>
    obtain ⟨hcall, hcalls⟩ := List.forall_mem_cons.1 hcalls
    obtain ⟨hperform, hsame⟩ := hh.perform hcapacity hcall
    obtain ⟨hafter, hcapacity'⟩ := ih hperform (hsame.trans_le hcapacity) hcalls
    exact ⟨hafter, hcapacity'.trans hsame⟩

/-- Blocks have different pointers. -/
theorem Valid.nodup_pointers (hh : h.Valid) (hcapacity : h.capacity ≤ 2 ^ 63) :
    (h.blocks.map (·.pointer)).Nodup := by
  rw [List.Nodup, List.pairwise_map]
  refine hh.disjoint.imp_of_mem fun {b c} hb hc hdisjoint heq => ?_
  have hstart : ∀ b ∈ h.blocks, b.pointer.toNatClampNeg = b.start := fun b hb => by
    have hroom := hh.bounded b hb
    have hlength := hh.positive b hb
    exact Int64.toNatClampNeg_ofNat_of_lt (by omega)
  have hsame : b.start = c.start := by rw [← hstart b hb, heq, hstart c hc]
  have hlengthb := hh.positive b hb
  have hlengthc := hh.positive c hc
  rcases hdisjoint with h | h <;> omega

/-- The invariant holds behind calls on a new heap. -/
theorem valid_ofCapacity_after {capacity : Nat} (hcapacity : capacity ≤ 2 ^ 63) {calls : List Call}
    (hcalls : ∀ call ∈ calls, call.Fits) :
    ((ofCapacity capacity).after calls).Valid ∧ ((ofCapacity capacity).after calls).capacity =
    capacity := by
  have hstart : (ofCapacity capacity).capacity = capacity := Array.size_replicate
  obtain ⟨hvalid, hsame⟩ := (valid_ofCapacity capacity).after (hstart.trans_le hcapacity) hcalls
  exact ⟨hvalid, hsame.trans hstart⟩

end

/-- Whatever calls have been made on a heap, its blocks are not empty, lie in the heap and do not
overlap, so that their pointers are different; the occupied cells are the cells of blocks, as many
as the blocks have together; strings have blocks; the number of cells is what it was; and a call
that fails leaves everything as it was. A heap has no more cells than there are words to point to
them. -/
theorem valid_after {capacity : Nat} (hcapacity : capacity ≤ 2 ^ 63) {calls : List Call}
    (hcalls : ∀ call ∈ calls, call.Fits) {h : Heap} (hh : h = (ofCapacity capacity).after calls) :
    (∀ b ∈ h.blocks, 1 ≤ b.length ∧ b.start + b.length ≤ capacity) ∧
    h.blocks.Pairwise Block.Disjoint ∧ (h.blocks.map (·.pointer)).Nodup ∧
    (∀ cell, h.used[cell]? = some true ↔ ∃ b ∈ h.blocks, b.Contains cell) ∧
    h.usedCount = (h.blocks.map (·.length)).sum ∧
    (∀ entry ∈ h.strings, ∃ b ∈ h.blocks, b.pointer = entry.2) ∧
    h.cells.size = capacity ∧ h.used.size = capacity ∧
    ∀ call, call.Fits → ∀ e h', h.perform call = (.error e, h') → h' = h := by
  have hstart : (ofCapacity capacity).capacity = capacity := Array.size_replicate
  obtain ⟨hvalid, hsame⟩ := (valid_ofCapacity capacity).after (hstart.trans_le hcapacity) hcalls
  rw [← hh, hstart] at hsame
  rw [← hh] at hvalid
  have hword : h.capacity ≤ 2 ^ 63 := hsame.trans_le hcapacity
  exact ⟨fun b hb => ⟨hvalid.positive b hb, (hvalid.bounded b hb).trans_eq hsame⟩, hvalid.disjoint,
    hvalid.nodup_pointers hword, hvalid.occupied, hvalid.usedCount_eq, hvalid.strings, hsame,
    hvalid.size_used.trans hsame, fun call hfits e h' => eq_of_perform_error hword hfits⟩

/-- Calls that use the hole of a block behind a string, and some that fail. -/
def reuseCalls : List Call :=
  [.allocate 2, .intern "a", .allocate (-1), .deallocate 2, .deallocate 0, .allocate 0, .allocate 1,
    .write 1 0 7, .intern "b"]

/-- The invariant holds behind `reuseCalls`, where four cells are occupied by three blocks. -/
theorem valid_after_reuseCalls : (∀ call ∈ reuseCalls, call.Fits) ∧
    ((ofCapacity 4).after reuseCalls).usedCount = 4 ∧
    (((ofCapacity 4).after reuseCalls).blocks.map (·.length)).sum = 4 ∧
    (((ofCapacity 4).after reuseCalls).blocks.map (·.pointer)).Nodup := by
  have hcalls : ∀ call ∈ reuseCalls, call.Fits := by decide
  have hcount : ((ofCapacity 4).after reuseCalls).usedCount = 4 := by decide
  have hvalid := valid_after (show 4 ≤ 2 ^ 63 by decide) hcalls rfl
  exact ⟨hcalls, hcount, hvalid.2.2.2.2.1.symm.trans hcount, hvalid.2.2.1⟩

end Firestorm.Heap
