import Firestorm.Proofs.Heap.Interning

/-!
# Blocks that are left over

The leaks of a heap are its blocks that hold no string. This file says what each operation does to
them: a block that is given out is one more of them, a block that is taken back is no longer one of
them, and strings do not count.

## Main definitions

* `Heap.Ledger`.

## Main results

* `Heap.Valid.leaks_allocate`, `Heap.Valid.leaks_intern`, `Heap.leaks_write`,
  `Heap.Valid.mem_leaks_deallocate`: the leaks behind the operations.
-/

namespace Firestorm.Heap

variable {h h' h'' : Heap}
variable {length pointer : Word}

theorem mem_leaks {b : Block} : b ∈ h.leaks ↔ b ∈ h.blocks ∧ h.isInterned b.pointer = false := by
  simp [leaks]

/-- A block that is given out has another pointer than all blocks and strings. -/
theorem Valid.exists_block_of_allocate (hh : h.Valid) (hcapacity : h.capacity ≤ 2 ^ 63)
    (hallocate : h.allocate length = .ok (pointer, h')) :
    ∃ b : Block, b.pointer = pointer ∧ h'.blocks = h.blocks ++ [b] ∧
      (∀ c ∈ h.blocks, c.pointer ≠ pointer) ∧ h.isInterned pointer = false := by
  obtain ⟨-, start, hfit, rfl, rfl⟩ := allocate_eq_ok.1 hallocate
  have hnew : ∀ c ∈ h.blocks, c.pointer ≠ Int64.ofNat start := fun c hc =>
    hh.pointer_ne_of_firstFit? hcapacity (le_max_right ..) hfit hc
  refine ⟨⟨start, _⟩, rfl, rfl, hnew, isInterned_eq_false_iff.2 fun text hmem => ?_⟩
  obtain ⟨c, hc, hpointer⟩ := hh.strings _ hmem
  exact hnew c hc hpointer

/-- A block that is given out is one more leak. -/
theorem Valid.leaks_allocate (hh : h.Valid) (hcapacity : h.capacity ≤ 2 ^ 63)
    (hallocate : h.allocate length = .ok (pointer, h')) :
    ∃ b : Block, b.pointer = pointer ∧ h'.blocks = h.blocks ++ [b] ∧ h'.leaks = h.leaks ++ [b] := by
  obtain ⟨b, hb, hblocks, -, hinterned⟩ := hh.exists_block_of_allocate hcapacity hallocate
  obtain ⟨-, start, -, -, rfl⟩ := allocate_eq_ok.1 hallocate
  refine ⟨b, hb, hblocks, ?_⟩
  have hsame : ∀ other, (h.reserve start (max length.toNatClampNeg 1)).isInterned other =
      h.isInterned other :=
    fun _ => rfl
  simp [leaks, hblocks, hsame, hb, hinterned]

/-- A string is no leak. -/
theorem Valid.leaks_intern (hh : h.Valid) (hcapacity : h.capacity ≤ 2 ^ 63) {text : String}
    (hintern : h.intern text = .ok (pointer, h')) : h'.leaks = h.leaks := by
  rcases intern_eq_ok.1 hintern with ⟨-, rfl⟩ | ⟨-, h₁, hallocate, rfl⟩
  · rfl
  · obtain ⟨b, hb, hblocks, hnew, -⟩ := hh.exists_block_of_allocate hcapacity hallocate
    obtain ⟨-, start, -, -, rfl⟩ := allocate_eq_ok.1 hallocate
    have hold : ∀ c ∈ h.blocks,
        (!(pointer == c.pointer || h.isInterned c.pointer)) = !h.isInterned c.pointer := by
      intro c hc
      rw [beq_eq_false_iff_ne.2 (hnew c hc).symm, Bool.false_or]
    have hown : [b].filter (fun c => !(pointer == c.pointer || h.isInterned c.pointer)) = [] := by
      simp [hb]
    calc _ = (h.blocks ++ [b]).filter fun c =>
      !(pointer == c.pointer || h.isInterned c.pointer) := by
          rw [← hblocks]
          rfl
      _ = h.leaks := by rw [List.filter_append, hown, List.append_nil,
        List.filter_congr hold, leaks]

theorem leaks_write {index value : Word} (hwrite : h.write pointer index value = .ok h') :
    h'.leaks = h.leaks := by
  obtain ⟨cell, -, rfl⟩ := write_eq_ok.1 hwrite
  rfl

/-- A block that is taken back is no longer a leak, and the others stay. -/
theorem Valid.mem_leaks_deallocate (hh : h.Valid) (hcapacity : h.capacity ≤ 2 ^ 63)
    (hdeallocate : h.deallocate pointer = .ok h') {b : Block} :
    b ∈ h'.leaks ↔ b ∈ h.leaks ∧ b.pointer ≠ pointer := by
  obtain ⟨c, rfl, hfrees⟩ := frees_of_deallocate hdeallocate
  have hnodup := hh.nodup_pointers hcapacity
  have hpointer : b ∈ h.blocks → (b ≠ c ↔ b.pointer ≠ c.pointer) := fun hb =>
    not_congr ⟨congrArg Block.pointer, List.inj_on_of_nodup_map hnodup hb hfrees.mem⟩
  have hinterned : h'.isInterned b.pointer = h.isInterned b.pointer := by
    rw [isInterned, hfrees.strings_eq, isInterned]
  rw [mem_leaks, mem_leaks, hinterned, hfrees.blocks_eq, hnodup.of_map.mem_erase_iff]
  constructor
  · rintro ⟨⟨hne, hb⟩, hstring⟩
    exact ⟨⟨hb, hstring⟩, (hpointer hb).1 hne⟩
  · rintro ⟨⟨hb, hstring⟩, hne⟩
    exact ⟨⟨(hpointer hb).2 hne, hb⟩, hstring⟩

/-! ### Ledgers -/

/-- Between two states of a heap, all new leaks are among the blocks `given`, and all leaks that are
no longer there are at the pointers `taken`. -/
structure Ledger (given : Block → Prop) (taken : Word → Prop) (h h' : Heap) : Prop where
  valid : h'.Valid
  capacity_eq : h'.capacity = h.capacity
  gained : ∀ b ∈ h'.leaks, b ∈ h.leaks ∨ given b
  lost : ∀ b ∈ h.leaks, b ∈ h'.leaks ∨ taken b.pointer

namespace Ledger

variable {given given' : Block → Prop} {taken taken' : Word → Prop}

/-- Leaks that stay as they are need no entry. -/
theorem of_leaks_eq (hvalid : h'.Valid) (hcapacity : h'.capacity = h.capacity)
    (hleaks : h'.leaks = h.leaks) : Ledger given taken h h' :=
  ⟨hvalid, hcapacity, fun _ hb => .inl (hleaks ▸ hb), fun _ hb => .inl (hleaks ▸ hb)⟩

theorem trans (hledger : Ledger given taken h h') (hledger' : Ledger given taken h' h'') :
    Ledger given taken h h'' where
  valid := hledger'.valid
  capacity_eq := hledger'.capacity_eq.trans hledger.capacity_eq
  gained b hb := (hledger'.gained b hb).elim (hledger.gained b) .inr
  lost b hb := (hledger.lost b hb).elim (hledger'.lost b) .inr

theorem mono (hledger : Ledger given taken h h') (hgiven : ∀ b, given b → given' b)
    (htaken : ∀ pointer, taken pointer → taken' pointer) : Ledger given' taken' h h' where
  valid := hledger.valid
  capacity_eq := hledger.capacity_eq
  gained b hb := (hledger.gained b hb).imp_right (hgiven b)
  lost b hb := (hledger.lost b hb).imp_right (htaken _)

end Ledger

section

variable {given : Block → Prop} {taken : Word → Prop}
variable {pointer : Word}

theorem Valid.ledger_intern (hh : h.Valid) (hcapacity : h.capacity ≤ 2 ^ 63) {text : String}
    (hintern : h.intern text = .ok (pointer, h')) : Ledger given taken h h' :=
  .of_leaks_eq (hh.intern hintern).1 (hh.intern hintern).2 (hh.leaks_intern hcapacity hintern)

theorem Valid.ledger_write (hh : h.Valid) {index value : Word}
    (hwrite : h.write pointer index value = .ok h') : Ledger given taken h h' := by
  have hleaks := leaks_write hwrite
  obtain ⟨cell, -, rfl⟩ := write_eq_ok.1 hwrite
  exact .of_leaks_eq (hh.withCells Array.size_setIfInBounds) Array.size_setIfInBounds hleaks

theorem Valid.ledger_allocate (hh : h.Valid) (hcapacity : h.capacity ≤ 2 ^ 63)
    (hallocate : h.allocate length = .ok (pointer, h'))
    (hgiven : ∀ b : Block, b.pointer = pointer → h'.blocks = h.blocks ++ [b] → given b) :
    Ledger given taken h h' := by
  obtain ⟨b, hb, hblocks, hleaks⟩ := hh.leaks_allocate hcapacity hallocate
  obtain ⟨hvalid, hsame, -⟩ := hh.allocate hallocate
  refine ⟨hvalid, hsame, fun c hc => ?_, fun c hc => .inl ?_⟩
  · rw [hleaks, List.mem_append, List.mem_singleton] at hc
    refine hc.imp_right ?_
    rintro rfl
    exact hgiven c hb hblocks
  · rw [hleaks]
    exact List.mem_append_left _ hc

theorem Valid.ledger_deallocate (hh : h.Valid) (hcapacity : h.capacity ≤ 2 ^ 63)
    (hdeallocate : h.deallocate pointer = .ok h') (htaken : taken pointer) :
    Ledger given taken h h' := by
  obtain ⟨hvalid, hsame⟩ := hh.deallocate hdeallocate
  have hleaks := fun b => hh.mem_leaks_deallocate hcapacity hdeallocate (b := b)
  refine ⟨hvalid, hsame, fun b hb => .inl ((hleaks b).1 hb).1, fun b hb => ?_⟩
  by_cases heq : b.pointer = pointer
  · exact .inr (heq ▸ htaken)
  · exact .inl ((hleaks b).2 ⟨hb, heq⟩)

end

end Firestorm.Heap
