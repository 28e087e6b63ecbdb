import Mathlib.Data.Nat.Find
import Mathlib.Order.Bounds.Defs
import Firestorm.Proofs.Heap.Invariant

/-!
# Blocks are given out by exact first fit

The search for free cells looks at a table of occupied cells, not at blocks. In every heap that
calls lead to the table says no more and no less than the blocks do, so that the search is exact: it
finds the lowest start where cells exist that belong to no block, and it fails only if there is
none. What a block leaves behind when it is taken back is room for a block of its length.

## Main definitions

* `Heap.HasRoom`, `Heap.Frees`.

## Main results

* `Heap.Valid.firstFit?_eq_some_iff`, `Heap.Valid.firstFit?_eq_none_iff`,
  `Heap.Valid.allocate_eq_ok_iff`, `Heap.Valid.allocate_eq_error_iff`.
* `Heap.exists_deallocate_iff`, `Heap.frees_of_deallocate`: when a block is taken back, and what is
  free behind that.
* `Heap.firstFit_after`: all of this behind any calls.
-/

namespace Firestorm.Heap

variable {length : Word}

/-- The cells of a row of `size` cells from `start` on exist and belong to no block. -/
def HasRoom (h : Heap) (start size : Nat) : Prop :=
  start + size ≤ h.capacity ∧
    ∀ cell, start ≤ cell → cell < start + size → ∀ b ∈ h.blocks, ¬ b.Contains cell

section

variable {h h' : Heap} (hh : h.Valid)
include hh

variable {size : Nat}

/-! ### The search -/

/-- A cell of the heap is free if it belongs to no block. -/
theorem Valid.isFree_iff {cell : Nat} (hcell : cell < h.capacity) :
    h.isFree cell = true ↔ ∀ b ∈ h.blocks, ¬ b.Contains cell := by
  have hsize : cell < h.used.size := hh.size_used.symm ▸ hcell
  have hoccupied := hh.occupied cell
  rw [Array.getElem?_eq_getElem hsize, Option.some_inj] at hoccupied
  have hfree : h.isFree cell = true ↔ ¬ h.used[cell] = true := by
    simp [isFree, Array.getElem?_eq_getElem hsize]
  rw [hfree, hoccupied]
  push Not
  rfl

theorem Valid.isFreeRun_iff {start : Nat} (hroom : start + size ≤ h.capacity) :
    h.isFreeRun start size = true ↔ h.HasRoom start size := by
  rw [isFreeRun, List.all_eq_true, HasRoom]
  constructor
  · refine fun hfree => ⟨hroom, fun cell hstart hstop => ?_⟩
    have hcell := hfree (cell - start) (List.mem_range.2 (by omega))
    rwa [Nat.add_sub_cancel' hstart, hh.isFree_iff (by omega)] at hcell
  · rintro ⟨-, hfree⟩ k hk
    have hk := List.mem_range.1 hk
    exact (hh.isFree_iff (by omega)).2 (hfree _ (by omega) (by omega))

/-- The search finds the lowest start of enough cells that belong to no block. -/
theorem Valid.firstFit?_eq_some_iff {start : Nat} :
    h.firstFit? size = some start ↔ IsLeast {start | h.HasRoom start size} start := by
  unfold firstFit?
  split
  · next hsize =>
    have hstart : ∀ s, s < h.capacity - size + 1 ↔ s + size ≤ h.capacity := fun s => by omega
    rw [List.find?_range_eq_some, List.mem_range, hstart]
    constructor
    · rintro ⟨hrun, hroom, hlower⟩
      refine ⟨(hh.isFreeRun_iff hroom).1 hrun, fun s hs => ?_⟩
      by_contra hlt
      have hfull := hlower s (by omega)
      rw [(hh.isFreeRun_iff hs.1).2 hs] at hfull
      cases hfull
    · rintro ⟨hroom, hleast⟩
      refine ⟨(hh.isFreeRun_iff hroom.1).2 hroom, hroom.1, fun s hlt => ?_⟩
      rw [Bool.not_eq_true', ← Bool.not_eq_true]
      intro hrun
      have hbound := hroom.1
      exact absurd (hleast ((hh.isFreeRun_iff (by omega)).1 hrun)) (by omega)
  · next hsize =>
    refine iff_of_false (by simp) fun hleast => ?_
    have hroom := hleast.1.1
    omega

/-- The search fails only if there are not enough cells anywhere. -/
theorem Valid.firstFit?_eq_none_iff :
    h.firstFit? size = none ↔ ¬ ∃ start, h.HasRoom start size := by
  constructor
  · rintro hnone ⟨start, hstart⟩
    classical
    -- Where there is room at all, there is a lowest start, which the search would have found.
    have hleast : IsLeast {start | h.HasRoom start size} (Nat.find ⟨start, hstart⟩) :=
      ⟨Nat.find_spec _, fun s hs => Nat.find_min' _ hs⟩
    rw [hh.firstFit?_eq_some_iff.2 hleast] at hnone
    cases hnone
  · intro hfull
    refine Option.eq_none_iff_forall_ne_some.2 fun start hstart => hfull ⟨start, ?_⟩
    exact (hh.firstFit?_eq_some_iff.1 hstart).1

/-! ### Giving out a block -/

/-- A block is given out at the lowest start where there is room for it. -/
theorem Valid.allocate_eq_ok_iff {pointer : Word} (hlength : 0 ≤ length)
    (hsize : size = max length.toNatClampNeg 1) :
    h.allocate length = .ok (pointer, h') ↔ ∃ start, IsLeast {start | h.HasRoom start size} start ∧
      pointer = Int64.ofNat start ∧ h' = h.reserve start size := by
  rw [allocate_eq_ok, ← hsize, and_iff_right (Int64.not_lt.2 hlength)]
  simp only [hh.firstFit?_eq_some_iff]

/-- No block is given out only if there is no room for it. -/
theorem Valid.allocate_eq_error_iff {e : HeapError} (hlength : 0 ≤ length)
    (hsize : size = max length.toNatClampNeg 1) :
    h.allocate length = .error e ↔ e = .outOfMemory length ∧ ¬ ∃ start, h.HasRoom start size := by
  rw [← hh.firstFit?_eq_none_iff, Heap.allocate, if_neg (Int64.not_lt.2 hlength), ← hsize]
  cases hfit : h.firstFit? size <;> simp [hfit, eq_comm]

end

/-! ### Taking back a block -/

section

variable {h h' : Heap} {pointer : Word}

theorem isInterned_eq_false_iff :
    h.isInterned pointer = false ↔ ∀ text, (text, pointer) ∉ h.strings := by
  rw [isInterned, List.any_eq_false]
  constructor
  · exact fun hnone text hmem => hnone _ hmem (beq_self_eq_true _)
  · intro hnone entry hmem heq
    exact hnone entry.1 (beq_iff_eq.1 heq ▸ hmem)

/-- A block can be taken back if it holds no string. -/
theorem exists_deallocate_iff : (∃ h', h.deallocate pointer = .ok h') ↔
    ∃ b ∈ h.blocks, b.pointer = pointer ∧ ∀ text, (text, pointer) ∉ h.strings := by
  simp only [deallocate_eq_ok, isInterned_eq_false_iff]
  constructor
  · rintro ⟨h', hstrings, b, hfind, -⟩
    have hpointer := List.find?_some hfind
    exact ⟨b, List.mem_of_find?_eq_some hfind, beq_iff_eq.1 hpointer, hstrings⟩
  · rintro ⟨b, hb, hpointer, hstrings⟩
    obtain ⟨c, hc⟩ := Option.isSome_iff_exists.1
      (List.find?_isSome.2 ⟨b, hb, beq_iff_eq.2 hpointer⟩ :
        (h.blocks.find? (·.pointer == pointer)).isSome)
    exact ⟨_, hstrings, c, hc, rfl⟩

/-- A block that is taken back is no longer among the blocks, and its cells are free. -/
structure Frees (h h' : Heap) (b : Block) : Prop where
  mem : b ∈ h.blocks
  blocks_eq : h'.blocks = h.blocks.erase b
  used_iff : ∀ cell, h'.used[cell]? = some true ↔ h.used[cell]? = some true ∧ ¬ b.Contains cell
  cells_eq : h'.cells = h.cells
  strings_eq : h'.strings = h.strings

theorem frees_of_deallocate (hdeallocate : h.deallocate pointer = .ok h') :
    ∃ b, b.pointer = pointer ∧ Frees h h' b := by
  obtain ⟨-, b, hfind, rfl⟩ := deallocate_eq_ok.1 hdeallocate
  obtain ⟨hpointer, first, last, hblocks, hfirst⟩ := List.find?_eq_some_iff_append.1 hfind
  refine ⟨b, beq_iff_eq.1 hpointer, List.mem_of_find?_eq_some hfind, ?_, fun cell => ?_, rfl, rfl⟩
  · -- The blocks in front of the first one with the pointer are different from it.
    have hmem : b ∉ first := fun hmem => by
      have hne := hfirst b hmem
      rw [hpointer] at hne
      cases hne
    change h.blocks.eraseP (·.pointer == pointer) = h.blocks.erase b
    rw [hblocks, List.eraseP_append_right _ (by simpa using hfirst), List.erase_append_right _ hmem,
      List.eraseP_cons, hpointer, List.erase_cons_head]
    rfl
  · change (mark h.used b.start false b.length)[cell]? = some true ↔ _
    rw [getElem?_mark]
    split
    · next hcell =>
      have hcontains : b.Contains cell := hcell
      cases h.used[cell]? <;> simp [hcontains]
    · next hcell =>
      have hcontains : ¬ b.Contains cell := hcell
      simp [hcontains]

/-- There is room where a block has been taken back. -/
theorem Frees.hasRoom {b : Block} (hfrees : Frees h h' b) (hh : h.Valid) (hh' : h'.Valid) :
    h'.HasRoom b.start b.length := by
  refine ⟨?_, fun cell hstart hstop c hc hcontains => ?_⟩
  · have hbound := hh.bounded b hfrees.mem
    rwa [capacity, ← hfrees.cells_eq] at hbound
  · have hused := (hh'.occupied cell).2 ⟨c, hc, hcontains⟩
    exact ((hfrees.used_iff cell).1 hused).2 ⟨hstart, hstop⟩

theorem ofNat_le_ofNat {m n : Nat} (hle : m ≤ n) (hn : n < 2 ^ 63) :
    Int64.ofNat m ≤ Int64.ofNat n := by
  rw [Int64.le_iff_toInt_le, Int64.toInt_ofNat_of_lt (by omega), Int64.toInt_ofNat_of_lt hn]
  exact Int.ofNat_le.2 hle

/-- A block of the length of the one that has just been taken back is given out at its start or
below. -/
theorem Frees.exists_allocate {b : Block} (hfrees : Frees h h' b) (hh : h.Valid) (hh' : h'.Valid)
    (hcapacity : h.capacity ≤ 2 ^ 63) (hlength : 0 ≤ length)
    (hsame : b.length = max length.toNatClampNeg 1) :
    ∃ pointer h'', h'.allocate length = .ok (pointer, h'') ∧ pointer ≤ b.pointer := by
  have hroom := hfrees.hasRoom hh hh'
  cases hfit : h'.firstFit? b.length with
  | none => exact absurd ⟨_, hroom⟩ (hh'.firstFit?_eq_none_iff.1 hfit)
  | some start =>
    have hleast := hh'.firstFit?_eq_some_iff.1 hfit
    have hbound := hh.bounded b hfrees.mem
    have hpositive := hh.positive b hfrees.mem
    exact ⟨_, _, (hh'.allocate_eq_ok_iff hlength hsame).2 ⟨start, hleast, rfl, rfl⟩,
      ofNat_le_ofNat (hleast.2 hroom) (by omega)⟩

end

/-- Whatever calls have been made on a heap, blocks are given out by exact first fit. A negative
length is refused. Any other length, at least one, is given out at the lowest start where that many
cells exist and belong to no block, and refused only if there is no such start. A pointer can be
given back exactly if it is that of a block which holds no string; that frees the cells of this
block and nothing else, so that its length is given out again at its start or below. -/
theorem firstFit_after {capacity : Nat} (hcapacity : capacity ≤ 2 ^ 63) {calls : List Call}
    (hcalls : ∀ call ∈ calls, call.Fits) {h : Heap} (hh : h = (ofCapacity capacity).after calls) :
    (∀ length : Word, length < 0 → h.allocate length = .error (.outOfMemory length)) ∧
    (∀ (length : Word) (size : Nat), 0 ≤ length → size = max length.toNatClampNeg 1 →
      (∀ pointer h', h.allocate length = .ok (pointer, h') ↔
        ∃ start, IsLeast {start | h.HasRoom start size} start ∧ pointer = Int64.ofNat start ∧
          h' = h.reserve start size) ∧
      ∀ e, h.allocate length = .error e ↔ e = .outOfMemory length ∧ ¬ ∃ start,
        h.HasRoom start size) ∧
    (∀ pointer, (∃ h', h.deallocate pointer = .ok h') ↔
      ∃ b ∈ h.blocks, b.pointer = pointer ∧ ∀ text, (text, pointer) ∉ h.strings) ∧
    ∀ pointer h', h.deallocate pointer = .ok h' → ∃ b, b.pointer = pointer ∧ Frees h h' b ∧
      ∀ length : Word, 0 ≤ length → b.length = max length.toNatClampNeg 1 →
        ∃ pointer' h'', h'.allocate length = .ok (pointer', h'') ∧ pointer' ≤ pointer := by
  obtain ⟨hvalid, hsame⟩ := valid_ofCapacity_after hcapacity hcalls
  rw [← hh] at hvalid hsame
  refine ⟨fun length hnegative => if_pos hnegative, fun length size hlength hsize => ?_,
    fun pointer => exists_deallocate_iff, fun pointer h' hdeallocate => ?_⟩
  · exact ⟨fun pointer h' => hvalid.allocate_eq_ok_iff hlength hsize,
      fun e => hvalid.allocate_eq_error_iff hlength hsize⟩
  · obtain ⟨b, rfl, hfrees⟩ := frees_of_deallocate hdeallocate
    obtain ⟨hvalid', -⟩ := hvalid.deallocate hdeallocate
    exact ⟨b, rfl, hfrees,
      fun length => hfrees.exists_allocate hvalid hvalid' (hsame.trans_le hcapacity)⟩

/-- Calls that leave a hole of two cells in front of the empty string. -/
def holeCalls : List Call := [.allocate 2, .intern "", .deallocate 0]

/-- Behind `holeCalls` four cells have room for two at the start and for three nowhere, and the
pointer to the string cannot be given back. -/
theorem firstFit_after_holeCalls : (∀ call ∈ holeCalls, call.Fits) ∧
    IsLeast {start | ((ofCapacity 4).after holeCalls).HasRoom start 2} 0 ∧
    (¬ ∃ start, ((ofCapacity 4).after holeCalls).HasRoom start 3) ∧
    ¬ ∃ h', ((ofCapacity 4).after holeCalls).deallocate 2 = .ok h' := by
  have hcalls : ∀ call ∈ holeCalls, call.Fits := by decide
  obtain ⟨-, hallocate, hdeallocate, -⟩ := firstFit_after (show 4 ≤ 2 ^ 63 by decide) hcalls rfl
  have hsmall : ((ofCapacity 4).after holeCalls).allocate 2 =
      .ok (0, ((ofCapacity 4).after holeCalls).reserve 0 2) := by
    rfl
  have hlarge : ((ofCapacity 4).after holeCalls).allocate 3 = .error (.outOfMemory 3) := by
    rfl
  refine ⟨hcalls, ?_, ?_, ?_⟩
  · obtain ⟨start, hstart, hpointer, -⟩ := ((hallocate 2 2 (by decide) rfl).1 _ _).1 hsmall
    have hbound : start + 2 ≤ 4 := hstart.1.1
    have hzero := congrArg Int64.toNatClampNeg hpointer
    rw [Int64.toNatClampNeg_ofNat_of_lt (by omega)] at hzero
    rwa [← hzero] at hstart
  · exact (((hallocate 3 3 (by decide) rfl).2 _).1 hlarge).2
  · rw [hdeallocate]
    rintro ⟨b, -, -, hstring⟩
    exact hstring "" (List.mem_cons_self ..)

end Firestorm.Heap
