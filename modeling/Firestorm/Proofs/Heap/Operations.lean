import Firestorm.Heap

/-!
# What the operations of the heap do

For each operation of the heap, when it succeeds and what it changes.

## Main results

* `Heap.getElem?_mark`, `Heap.firstFit?_eq_some`.
* `Heap.allocate_eq_ok`, `Heap.deallocate_eq_ok`, `Heap.write_eq_ok`, `Heap.intern_eq_ok`:
  operations that succeed.
-/

namespace Firestorm.Heap

variable {pointer : Word}

/-! ### Rows of cells -/

@[simp] theorem size_mark (used : Array Bool) (start : Nat) (value : Bool) (length : Nat) :
    (mark used start value length).size = used.size := by
  induction length generalizing used start with
  | zero => rfl
  | succ n ih => rw [mark, ih, Array.size_setIfInBounds]

/-- Which cells are occupied once a row of cells is marked. -/
theorem getElem?_mark (used : Array Bool) (start : Nat) (value : Bool) (length cell : Nat) :
    (mark used start value length)[cell]? =
      if start ≤ cell ∧ cell < start + length then used[cell]?.map fun _ => value
      else used[cell]? := by
  induction length generalizing used start with
  | zero => rw [mark, if_neg (by omega)]
  | succ n ih =>
    rw [mark, ih, Array.getElem?_setIfInBounds]
    by_cases hstart : start = cell
    · subst hstart
      by_cases hsize : start < used.size <;> simp [hsize]
    · simp only [if_neg hstart]
      by_cases hrow : start + 1 ≤ cell ∧ cell < start + 1 + n
      · rw [if_pos hrow, if_pos (by omega)]
      · rw [if_neg hrow, if_neg (by omega)]

/-- Marking cells that hold the other value changes the number of marked cells by their number. -/
theorem count_mark {used : Array Bool} {start length : Nat} {value : Bool}
    (h : ∀ k < length, used[start + k]? = some !value) :
    (mark used start value length).count value = used.count value + length ∧
      (mark used start value length).count (!value) + length = used.count !value := by
  induction length generalizing used start with
  | zero => exact ⟨rfl, rfl⟩
  | succ n ih =>
    have hfirst : used[start]? = some !value := h 0 (Nat.succ_pos n)
    obtain ⟨hsize, hstart⟩ := Array.getElem?_eq_some_iff.1 hfirst
    have hset : used.setIfInBounds start value = used.set start value hsize := by
      simp [Array.setIfInBounds, hsize]
    have hrest : ∀ k < n, (used.setIfInBounds start value)[start + 1 + k]? = some !value := by
      intro k hk
      rw [Array.getElem?_setIfInBounds, if_neg (by omega), Nat.add_assoc, Nat.add_comm 1 k]
      exact h (k + 1) (by omega)
    obtain ⟨hmarked, hother⟩ := ih hrest
    have hmem : 0 < used.count !value := by
      rw [Array.count_pos_iff, ← hstart]
      exact Array.getElem_mem hsize
    have hcounts : (used.set start value hsize).count value = used.count value + 1 ∧
        (used.set start value hsize).count (!value) = used.count (!value) - 1 := by
      rw [Array.count_set hsize, Array.count_set hsize, hstart]
      cases value <;> simp
    rw [hset] at hmarked hother
    rw [hcounts.1] at hmarked
    rw [hcounts.2] at hother
    rw [mark, hset]
    omega

@[simp] theorem capacity_reserve (h : Heap) (start length : Nat) :
    (h.reserve start length).capacity = h.capacity := rfl

/-- A row that is found is free. -/
theorem firstFit?_eq_some {h : Heap} {length start : Nat} (hfit : h.firstFit? length = some start) :
    start + length ≤ h.capacity ∧ ∀ k < length, h.used[start + k]? = some false := by
  unfold firstFit? at hfit
  split at hfit
  · next hlength =>
    have hmem := List.mem_range.1 (List.mem_of_find?_eq_some hfit)
    have hfree := List.find?_some hfit
    refine ⟨by omega, fun k hk => ?_⟩
    simpa [isFree] using List.all_eq_true.1 hfree k (List.mem_range.2 hk)
  · cases hfit

/-! ### Operations that succeed -/

variable {h h' : Heap}

theorem allocate_eq_ok {length : Word} : h.allocate length = .ok (pointer, h') ↔
    ¬ length < 0 ∧ ∃ start, h.firstFit? (max length.toNatClampNeg 1) = some start ∧
      pointer = Int64.ofNat start ∧ h' = h.reserve start (max length.toNatClampNeg 1) := by
  unfold allocate
  by_cases hlength : length < 0
  · simp [hlength]
  · simp only [hlength, if_false, not_false_eq_true, true_and]
    cases h.firstFit? (max length.toNatClampNeg 1) <;> simp [eq_comm]

theorem deallocate_eq_ok : h.deallocate pointer = .ok h' ↔
    h.isInterned pointer = false ∧ ∃ b, h.blocks.find? (·.pointer == pointer) = some b ∧
      h' = { h with
        used := mark h.used b.start false b.length
        blocks := h.blocks.eraseP (·.pointer == pointer) } := by
  unfold deallocate
  by_cases hinterned : h.isInterned pointer
  · simp [hinterned]
  · simp only [hinterned, Bool.false_eq_true, if_false, true_and]
    cases h.blocks.find? (·.pointer == pointer) <;> simp [eq_comm]

theorem write_eq_ok {index value : Word} : h.write pointer index value = .ok h' ↔
    ∃ cell, h.cell pointer index = .ok cell ∧ h' = h.setCell cell value := by
  unfold write
  cases h.cell pointer index <;> simp [eq_comm]

theorem setCells_eq (h : Heap) (start : Nat) (values : List Word) :
    h.setCells start values = { h with cells := (h.setCells start values).cells } := by
  induction values generalizing h start with
  | nil => rfl
  | cons value values ih =>
    rw [setCells, ih]
    rfl

@[simp] theorem capacity_setCells (h : Heap) (start : Nat) (values : List Word) :
    (h.setCells start values).capacity = h.capacity := by
  induction values generalizing h start with
  | nil => rfl
  | cons value values ih =>
    rw [setCells, ih]
    exact Array.size_setIfInBounds

/-- A string that is not kept yet gets a block with its bytes and a zero. -/
theorem intern_eq_ok {text : String} : h.intern text = .ok (pointer, h') ↔
    h.strings.lookup text = some pointer ∧ h' = h ∨
      h.strings.lookup text = none ∧
        ∃ h₁, h.allocate (Int64.ofNat (stringCells text).length) = .ok (pointer, h₁) ∧
          h' = { h₁ with
            cells := (h₁.setCells pointer.toNatClampNeg (stringCells text)).cells
            strings := (text, pointer) :: h₁.strings } := by
  unfold intern
  cases h.strings.lookup text with
  | some kept => simp [eq_comm]
  | none =>
    cases hallocate : h.allocate (Int64.ofNat (stringCells text).length) with
    | error e => simp [hallocate]
    | ok result =>
      have hcells := setCells_eq result.2 result.1.toNatClampNeg (stringCells text)
      simp only [hallocate]
      rw [hcells]
      constructor
      · intro heq
        cases heq
        exact .inr ⟨trivial, _, rfl, rfl⟩
      · rintro (⟨hnone, -⟩ | ⟨-, h₁, hresult, rfl⟩)
        · cases hnone
        · cases hresult
          rfl

end Firestorm.Heap
