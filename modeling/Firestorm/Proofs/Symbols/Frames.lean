import Mathlib.Algebra.Ring.Nat
import Mathlib.Order.Basic
import Firestorm.Proofs.Symbols.Tables
import Firestorm.Symbols.Slot

/-!
# Slots that do not overlap

A layout is built by declarations from a frame that reserves some bytes for itself. A declaration
that is rejected leaves the layout as it was. Whatever is declared, and in whatever order, the slots
lie behind the reserved bytes and in front of the first free byte, each at a multiple of its size,
and no two of them overlap.

## Main definitions

* `FrameLayout.after`, `FrameLayout.afterAll`, `FrameLayout.Sound`.

## Main results

* `FrameLayout.get?_afterAll`, `FrameLayout.declare_eq_error_iff`, `FrameLayout.sound_afterAll`.
-/

namespace Firestorm

theorem Datatype.size_eq (d : Datatype) : d.size = 1 ∨ d.size = 8 := by
  unfold size
  split <;> simp

theorem Datatype.size_pos (d : Datatype) : 0 < d.size := by
  rcases d.size_eq with h | h <;> omega

theorem dvd_alignUp (n alignment : Nat) : alignment ∣ alignUp n alignment :=
  Nat.dvd_mul_left ..

theorem le_alignUp {n alignment : Nat} (h : 0 < alignment) : n ≤ alignUp n alignment := by
  have hdiv := Nat.div_add_mod (n + alignment - 1) alignment
  have hmod := Nat.mod_lt (n + alignment - 1) h
  rw [Nat.mul_comm] at hdiv
  unfold alignUp
  omega

namespace Slot

/-- The first byte behind a slot. -/
def stop (slot : Slot) : Nat := slot.offset + slot.datatype.size

/-- Two slots have no byte in common. -/
def Apart (slot other : Slot) : Prop := slot.stop ≤ other.offset ∨ other.stop ≤ slot.offset

theorem Apart.symm {slot other : Slot} (h : slot.Apart other) : other.Apart slot := Or.symm h

end Slot

namespace FrameLayout

/-- The layout behind a declaration. One that is rejected changes nothing. -/
def after (layout : FrameLayout) (b : Binding) : FrameLayout :=
  match layout.declare b with
  | .ok (_, layout') => layout'
  | .error _ => layout

/-- The layout behind declarations. -/
def afterAll (layout : FrameLayout) (bs : List Binding) : FrameLayout :=
  bs.foldl after layout

@[simp] theorem afterAll_nil (layout : FrameLayout) : layout.afterAll [] = layout := rfl

@[simp] theorem afterAll_append (layout : FrameLayout) (bs cs : List Binding) :
    layout.afterAll (bs ++ cs) = (layout.afterAll bs).afterAll cs :=
  List.foldl_append

variable {layout layout' : FrameLayout} {b : Binding} {slot : Slot} {name : String}

theorem after_of_declare (h : layout.declare b = .ok (slot, layout')) :
    layout.after b = layout' := by
  rw [after, h]

/-- A declaration is rejected if the name has a slot for another datatype. -/
theorem declare_eq_error_iff {e : SymbolError} : layout.declare b = .error e ↔
    e = .redefined b.name ∧ ∃ slot, layout.get? b.name = some slot ∧
    slot.datatype ≠ b.datatype := by
  unfold declare
  cases layout.get? b.name with
  | none => simp
  | some slot =>
    by_cases hd : slot.datatype = b.datatype
    · simp [hd]
    · simp [hd, eq_comm]

/-- The slot that a declaration returns is found under the name. -/
theorem get?_of_declare (h : layout.declare b = .ok (slot, layout')) :
    layout'.get? b.name = some slot ∧ slot.datatype = b.datatype := by
  unfold declare at h
  cases hget : layout.get? b.name with
  | none =>
    simp only [hget] at h
    cases h
    exact ⟨Table.get?_set_self .., rfl⟩
  | some old =>
    simp only [hget] at h
    split at h
    · next hd =>
      cases h
      exact ⟨hget, hd⟩
    · cases h

/-- What a declaration does to a layout: nothing, or it gives a new name the next slot. -/
theorem after_cases (layout : FrameLayout) (b : Binding) : layout.after b = layout ∨
    layout.get? b.name = none ∧ ∃ slot : Slot, slot.datatype = b.datatype ∧
      slot.offset = alignUp layout.next b.datatype.size ∧
      layout.after b = ⟨layout.slots.set b.name slot, slot.stop⟩ := by
  unfold after declare
  cases hget : layout.get? b.name with
  | none => exact .inr ⟨rfl, _, rfl, rfl, rfl⟩
  | some slot =>
    left
    by_cases hd : slot.datatype = b.datatype <;> simp [hd]

/-- A variable keeps its slot. -/
theorem get?_after (h : layout.get? name = some slot) (b : Binding) :
    (layout.after b).get? name = some slot := by
  rcases after_cases layout b with heq | ⟨hnone, slot', -, -, heq⟩
  · rw [heq, h]
  · have hne : name ≠ b.name := by
      rintro rfl
      rw [hnone] at h
      cases h
    rw [heq]
    exact (Table.get?_set_of_ne _ hne _).trans h

/-- A variable keeps its slot for ever. -/
theorem get?_afterAll (h : layout.get? name = some slot) (bs : List Binding) :
    (layout.afterAll bs).get? name = some slot := by
  induction bs generalizing layout with
  | nil => exact h
  | cons b bs ih => exact ih (get?_after h b)

/-- The slots lie between the reserved bytes and the first free byte, aligned and apart. -/
structure Sound (reserved : Nat) (layout : FrameLayout) : Prop where
  reserved_le_next : reserved ≤ layout.next
  reserved_le : ∀ name slot, layout.get? name = some slot → reserved ≤ slot.offset
  stop_le : ∀ name slot, layout.get? name = some slot → slot.stop ≤ layout.next
  aligned : ∀ name slot, layout.get? name = some slot → slot.datatype.size ∣ slot.offset
  apart : ∀ name other slot slot', name ≠ other → layout.get? name = some slot →
    layout.get? other = some slot' → slot.Apart slot'

theorem sound_reserving (reserved : Nat) : Sound reserved (reserving reserved) where
  reserved_le_next := Nat.le_refl _
  reserved_le _ _ h := by cases h
  stop_le _ _ h := by cases h
  aligned _ _ h := by cases h
  apart _ _ _ _ _ h := by cases h

/-- A new slot behind all others keeps a layout sound. -/
theorem Sound.set {reserved : Nat} (h : layout.Sound reserved) (hoffset : layout.next ≤ slot.offset)
    (haligned : slot.datatype.size ∣ slot.offset) :
    Sound reserved ⟨layout.slots.set name slot, slot.stop⟩ := by
  have hstop : slot.offset ≤ slot.stop := Nat.le_add_right ..
  have hcases : ∀ other slot', get? ⟨layout.slots.set name slot, slot.stop⟩ other = some slot' →
      other = name ∧ slot' = slot ∨ other ≠ name ∧ layout.get? other = some slot' := by
    intro other slot' hget
    rw [get?, Table.get?_set] at hget
    split at hget
    · next heq => exact .inl ⟨heq, (Option.some.inj hget).symm⟩
    · next hne => exact .inr ⟨hne, hget⟩
  have hold : ∀ other slot', layout.get? other = some slot' → slot'.Apart slot :=
    fun other slot' hget =>
    .inl ((h.stop_le other slot' hget).trans hoffset)
  refine ⟨(h.reserved_le_next.trans hoffset).trans hstop, ?_, ?_, ?_, ?_⟩
  · intro other slot' hget
    rcases hcases other slot' hget with ⟨-, rfl⟩ | ⟨-, hget⟩
    · exact h.reserved_le_next.trans hoffset
    · exact h.reserved_le other slot' hget
  · intro other slot' hget
    rcases hcases other slot' hget with ⟨-, rfl⟩ | ⟨-, hget⟩
    · exact Nat.le_refl _
    · exact ((h.stop_le other slot' hget).trans hoffset).trans hstop
  · intro other slot' hget
    rcases hcases other slot' hget with ⟨-, rfl⟩ | ⟨-, hget⟩
    · exact haligned
    · exact h.aligned other slot' hget
  · intro other third slot' slot'' hne hget hget'
    rcases hcases other slot' hget with ⟨rfl, rfl⟩ | ⟨-, hold'⟩ <;>
      rcases hcases third slot'' hget' with ⟨rfl, rfl⟩ | ⟨-, hold''⟩
    · exact absurd rfl hne
    · exact (hold third slot'' hold'').symm
    · exact hold other slot' hold'
    · exact h.apart other third slot' slot'' hne hold' hold''

theorem Sound.after {reserved : Nat} (h : layout.Sound reserved) (b : Binding) :
    (layout.after b).Sound reserved := by
  rcases after_cases layout b with heq | ⟨-, slot, hdatatype, hoffset, heq⟩
  · rwa [heq]
  · rw [heq]
    refine h.set ?_ ?_
    · exact hoffset ▸ le_alignUp b.datatype.size_pos
    · exact hoffset ▸ hdatatype ▸ dvd_alignUp ..

/-- Whatever is declared, the layout is sound. -/
theorem sound_afterAll (reserved : Nat) (bs : List Binding) :
    ((reserving reserved).afterAll bs).Sound reserved := by
  suffices h : ∀ layout : FrameLayout, layout.Sound reserved →
      (layout.afterAll bs).Sound reserved from
    h _ (sound_reserving reserved)
  induction bs with
  | nil => exact fun _ h => h
  | cons b bs ih => exact fun layout h => ih _ (h.after b)

theorem next_le_size (layout : FrameLayout) : layout.next ≤ layout.size :=
  le_alignUp (by decide)

theorem dvd_size (layout : FrameLayout) : 16 ∣ layout.size :=
  dvd_alignUp ..

end FrameLayout

end Firestorm
