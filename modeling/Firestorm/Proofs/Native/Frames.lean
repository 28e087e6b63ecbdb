import Firestorm.Proofs.Native.Riscv.Execution
import Firestorm.Proofs.Native.Units
import Firestorm.Proofs.Native.X86.Execution

/-!
# Stack frames

The prologue of a function reserves a frame below the stack of the caller and saves registers of the
caller: on x86-64 above the frame, on RISC-V in its first two words. On x86-64 locals are found
downwards from the end of the frame, on RISC-V upwards from its start. In both directions the slots
of a layout denote ranges of memory inside the frame, and no access to a local touches another local
or a saved register.

## Main definitions

* `Architecture.State`, `Architecture.perform`, `Architecture.slotSpan`, `Architecture.savedSpans`,
  `Architecture.Reserves`, `Architecture.Houses`, `Architecture.ConfinedTo`.

## Main results

* `Architecture.exists_reserves`, `Architecture.Reserves.houses`,
  `Architecture.confinedTo_of_local?`.
* `Native.frames_sound`: the frames of generated functions are sound.
-/

namespace Firestorm

open Native (Convention FunctionCode Names Primitive Processor Span functionUnit readSpan)

namespace Architecture

/-! ### Processors -/

/-- The registers of a processor. -/
def Register : Architecture → Type
  | x86 => X86.Reg
  | riscv => Fin 32

/-- The flags of a processor. -/
def Flags : Architecture → Type
  | x86 => Option (Word × Word)
  | riscv => Unit

/-- The states of a processor. -/
abbrev State (a : Architecture) : Type := Processor a.Register a.Flags

/-- The meaning of the lines of a primitive. -/
def perform (labels : String → Word) : (a : Architecture) → Primitive a.convention.registers →
    a.State → Option a.State
  | x86, q, m => X86.run labels (X86.lower q) m
  | riscv, q, m => Riscv.run labels (Riscv.lower q) m

/-- The pointer to the last byte that was put on the stack. -/
def stackPointer : (a : Architecture) → a.State → Word
  | x86, m => m.registers X86.Reg.rsp
  | riscv, m => Riscv.get m .sp

/-- The pointer from which locals are found. -/
def framePointer : (a : Architecture) → a.State → Word
  | x86, m => m.registers X86.Reg.rbp
  | riscv, m => Riscv.get m Riscv.framePointer

/-- The range of memory of a slot. -/
def slotSpan (a : Architecture) (pointer : Word) (slot : Slot) : Span :=
  match a with
  | x86 => ⟨pointer - Int64.ofNat (slot.offset + slot.datatype.size), slot.datatype.size⟩
  | riscv => .offset pointer slot.offset slot.datatype.size

/-- The ranges of memory in which the registers of the caller are saved. -/
def savedSpans (a : Architecture) (pointer : Word) : List Span :=
  match a with
  | x86 => [⟨pointer, 8⟩]
  | riscv => [.offset pointer 0 8, .offset pointer 8 8]

/-- The registers of the caller that are saved: the frame pointer, and the return address in front
of it if the call has not put it on the stack. -/
def savedRegisters : (a : Architecture) → a.State → List Word
  | x86, m => [m.registers X86.Reg.rbp]
  | riscv, m => [Riscv.get m .ra, Riscv.get m Riscv.framePointer]

/-- The bytes that are saved between the frame and the stack of the caller. -/
def savedAbove : Architecture → Nat
  | x86 => 8
  | riscv => 0

/-- The distance of the frame pointer from the first byte of the frame. -/
def anchor (a : Architecture) (frame : Nat) : Nat :=
  match a with
  | x86 => frame
  | riscv => 0

/-- The distance of a slot from the first byte of the frame. -/
def slotDistance (a : Architecture) (frame : Nat) (slot : Slot) : Nat :=
  match a with
  | x86 => frame - slot.stop
  | riscv => slot.offset

variable {a : Architecture} {labels : String → Word}

/-- The lines of a primitive change the memory only where they access it. -/
theorem reaches_of_perform {q : Primitive a.convention.registers} {m m' : a.State}
    (h : a.perform labels q m = some m') : ∃ spans, Processor.Reaches spans m m' := by
  cases a with
  | x86 => exact X86.reaches_of_run h
  | riscv => exact Riscv.reaches_of_run h

/-! ### Reserving a frame -/

/-- A prologue moves the stack pointer down by the frame and what is saved above it, and saves
registers of the caller at the frame pointer. -/
structure Reserves (a : Architecture) (frame : Nat) (m m' : a.State) : Prop where
  stackPointer_eq : a.stackPointer m' = a.stackPointer m - Int64.ofNat (frame + a.savedAbove)
  framePointer_eq : a.framePointer m' = a.stackPointer m' + Int64.ofNat (a.anchor frame)
  accesses_eq : m'.accesses = m.accesses ++ a.savedSpans (a.framePointer m')
  saved_eq : (a.savedSpans (a.framePointer m')).map (readSpan m'.memory) = a.savedRegisters m

/-- The prologue reserves a frame. -/
theorem exists_reserves (a : Architecture) (labels : String → Word) (frame : Nat) (m : a.State) :
    ∃ m', a.perform labels (.prologue frame) m = some m' ∧ a.Reserves frame m m' := by
  cases a with
  | x86 =>
    obtain ⟨m', hrun, hbp, hsp, haccesses, hsaved⟩ := X86.run_prologue labels frame m
    refine ⟨m', hrun, ?_, ?_, haccesses, congrArg (fun w => [w]) hsaved⟩
    · exact hsp.trans (hbp ▸ Native.sub_sub_ofNat _ frame)
    · exact (hsp ▸ Int64.sub_add_cancel _ _).symm
  | riscv =>
    obtain ⟨m', hrun, hfp, hsp, haccesses, hra, hsaved⟩ := Riscv.run_prologue labels frame m
    refine ⟨m', hrun, hsp.trans hfp, ?_, haccesses, ?_⟩
    · exact hsp.symm.trans (Int64.add_zero _).symm
    · exact congrArg₂ (fun w w' => [w, w']) hra hsaved

/-! ### Slots inside a frame -/

/-- The slots of a layout denote ranges inside the frame above the stack pointer, which overlap
neither one another nor the saved registers. -/
structure Houses (a : Architecture) (layout : FrameLayout) (m : a.State) : Prop where
  inside : ∀ name slot, layout.get? name = some slot →
    (a.slotSpan (a.framePointer m) slot).Inside ⟨a.stackPointer m, layout.size⟩
  apart : ∀ name other slot slot', name ≠ other → layout.get? name = some slot →
    layout.get? other = some slot' →
    (a.slotSpan (a.framePointer m) slot).Apart (a.slotSpan (a.framePointer m) slot')
  apart_saved : ∀ name slot, layout.get? name = some slot → ∀ s ∈ a.savedSpans (a.framePointer m),
    (a.slotSpan (a.framePointer m) slot).Apart s

theorem add_ofNat_sub_ofNat (base : Word) {k n : Nat} (h : k ≤ n) :
    base + Int64.ofNat n - Int64.ofNat k = base + Int64.ofNat (n - k) := by
  refine Int64.toBitVec_inj.1 ?_
  simp only [Int64.toBitVec_sub, Int64.toBitVec_add, Int64.toBitVec_ofNat']
  bv_omega

namespace Reserves

variable {frame : Nat} {m m' : a.State}

theorem slotSpan_eq (h : a.Reserves frame m m') {slot : Slot} (hstop : slot.stop ≤ frame) :
    a.slotSpan (a.framePointer m') slot =
      .offset (a.stackPointer m') (a.slotDistance frame slot) slot.datatype.size := by
  rw [h.framePointer_eq]
  cases a with
  | x86 => exact congrArg (Span.mk · _) (add_ofNat_sub_ofNat _ hstop)
  | riscv => exact congrArg (Span.mk · _) (congrArg (· + _) (Int64.add_zero _))

theorem slotDistance_add_size_le {slot : Slot} (hstop : slot.stop ≤ frame) :
    a.slotDistance frame slot + slot.datatype.size ≤ frame := by
  unfold Slot.stop at hstop
  cases a with
  | x86 =>
    dsimp only [slotDistance, Slot.stop]
    omega
  | riscv => exact hstop

theorem slotDistance_apart {slot slot' : Slot} (hstop : slot.stop ≤ frame)
    (hstop' : slot'.stop ≤ frame) (hapart : slot.Apart slot') :
    a.slotDistance frame slot + slot.datatype.size ≤ a.slotDistance frame slot' ∨
      a.slotDistance frame slot' + slot'.datatype.size ≤ a.slotDistance frame slot := by
  unfold Slot.Apart at hapart
  unfold Slot.stop at hapart hstop hstop'
  cases a with
  | x86 =>
    dsimp only [slotDistance, Slot.stop]
    omega
  | riscv => exact hapart

/-- The saved registers lie above the slots on one processor and below them on the other one. -/
theorem savedSpans_apart (h : a.Reserves frame m m') (hframe : frame + 8 ≤ 2 ^ 64) {slot : Slot}
    (hreserved : a.convention.reserved ≤ slot.offset) (hstop : slot.stop ≤ frame) :
    ∀ s ∈ a.savedSpans (a.framePointer m'), (a.slotSpan (a.framePointer m') slot).Apart s := by
  have hsize := slotDistance_add_size_le (a := a) hstop
  rw [h.slotSpan_eq hstop, h.framePointer_eq]
  cases a with
  | x86 => exact List.forall_mem_singleton.2 (Span.apart_offset (by omega) hframe (.inl hsize))
  | riscv =>
    have hpointer : riscv.stackPointer m' + Int64.ofNat (riscv.anchor frame) =
        riscv.stackPointer m' :=
      Int64.add_zero _
    rw [hpointer]
    have hreserved : 16 ≤ riscv.slotDistance frame slot := hreserved
    refine List.forall_mem_cons.2 ⟨?_, List.forall_mem_singleton.2 ?_⟩
    · exact Span.apart_offset (by omega) (by simp) (.inr (by omega))
    · exact Span.apart_offset (by omega) (by simp) (.inr (by omega))

/-- A frame houses the slots of a sound layout of its size. -/
theorem houses {layout : FrameLayout} (h : a.Reserves layout.size m m')
    (hlayout : layout.Sound a.convention.reserved) (hsize : layout.size < 2 ^ 32) :
    a.Houses layout m' := by
  have hstop : ∀ name slot, layout.get? name = some slot → slot.stop ≤ layout.size :=
    fun name slot hslot =>
    (hlayout.stop_le name slot hslot).trans layout.next_le_size
  refine ⟨fun name slot hslot => ?_, fun name other slot slot' hne hslot hslot' => ?_,
    fun name slot hslot =>
    h.savedSpans_apart (by omega) (hlayout.reserved_le name slot hslot) (hstop name slot hslot)⟩
  · rw [h.slotSpan_eq (hstop name slot hslot), ← Span.offset_zero]
    refine Span.inside_offset (by omega) (Nat.zero_le _) ?_
    rw [Nat.zero_add]
    exact slotDistance_add_size_le (hstop name slot hslot)
  · have hle := slotDistance_add_size_le (a := a) (hstop name slot hslot)
    have hle' := slotDistance_add_size_le (a := a) (hstop other slot' hslot')
    rw [h.slotSpan_eq (hstop name slot hslot), h.slotSpan_eq (hstop other slot' hslot')]
    exact Span.apart_offset (by omega) (by omega) (slotDistance_apart (hstop name slot hslot)
      (hstop other slot' hslot') (hlayout.apart name other slot slot' hne hslot hslot'))

end Reserves

/-! ### Accesses to slots -/

/-- Wherever locals are found from the given frame pointer, a primitive accesses the range of a
slot, and nothing else, and leaves what is apart from it as it was. -/
def ConfinedTo (a : Architecture) (labels : String → Word) (q : Primitive a.convention.registers)
    (slot : Slot) (pointer : Word) : Prop :=
  ∀ m, a.framePointer m = pointer → ∃ m' k, a.perform labels q m = some m' ∧
    m'.accesses = m.accesses ++ List.replicate (k + 1) (a.slotSpan pointer slot) ∧
    ∀ s : Span, s.length ≤ 2 ^ 64 → s.Apart (a.slotSpan pointer slot) →
      readSpan m'.memory s = readSpan m.memory s

theorem exists_accesses {q : Primitive a.convention.registers} {slot : Slot}
    (hq : q.local? = some (slot.offset, slot.datatype.size)) (labels : String → Word)
    (m : a.State) : ∃ m' k, a.perform labels q m = some m' ∧
      m'.accesses = m.accesses ++ List.replicate (k + 1) (a.slotSpan (a.framePointer m) slot) := by
  cases a with
  | x86 =>
    obtain ⟨m', hrun, haccesses⟩ := X86.run_access hq slot.datatype.size_eq labels m
    exact ⟨m', 0, hrun, haccesses⟩
  | riscv => exact Riscv.run_access hq slot.datatype.size_eq labels m

/-- An access to a local is confined to its slot. -/
theorem confinedTo_of_local? {q : Primitive a.convention.registers} {slot : Slot}
    (hq : q.local? = some (slot.offset, slot.datatype.size)) (labels : String → Word)
    (pointer : Word) : a.ConfinedTo labels q slot pointer := by
  rintro m rfl
  obtain ⟨m', k, hperform, haccesses⟩ := exists_accesses hq labels m
  refine ⟨m', k, hperform, haccesses, fun s hlength hapart => ?_⟩
  obtain ⟨spans, hspans⟩ := reaches_of_perform hperform
  obtain rfl : spans = List.replicate (k + 1) (a.slotSpan (a.framePointer m) slot) :=
    List.append_cancel_left (hspans.accesses_eq.symm.trans haccesses)
  exact hspans.readSpan_eq hlength fun t ht => List.eq_of_mem_replicate ht ▸ hapart

end Architecture

namespace Native

section

variable {c : Convention} {f : FunctionDef} {frame frame' : Nat}
  {inner : List (Primitive c.registers)}

/-- The frame of a function is the frame of its prologue. -/
theorem prologue_mem_framed_iff (hinner : inner.all Primitive.isInner = true) :
    .prologue frame' ∈ framed f frame inner ↔ frame' = frame := by
  have hnot : Primitive.prologue frame' ∉ inner := fun hmem => by
    cases isInner_of_mem hinner hmem
  have hexports : Primitive.prologue (n := c.registers) frame' ∉ exports f := fun hmem => by
    obtain ⟨symbol, heq⟩ := isExport_of_mem_exports hmem
    cases heq
  simp [framed, hnot, hexports]

/-- What accesses the frame stands in the body. -/
theorem mem_of_local? {q : Primitive c.registers} {access : Nat × Nat}
    (hmem : q ∈ framed f frame inner) (hq : q.local? = some access) : q ∈ inner := by
  obtain ⟨offset, size⟩ := access
  have hexports : q ∉ exports f := fun hmem => by
    obtain ⟨symbol, rfl⟩ := isExport_of_mem_exports hmem
    cases hq
  rcases Primitive.local?_cases hq with ⟨target, rfl⟩ | ⟨value, rfl⟩ | ⟨delta, rfl⟩ <;>
    simpa [framed, hexports] using hmem

end

/-- Stack frames are sound. However locals are declared, their slots do not overlap, each is aligned
to its size, a name keeps its slot, a declaration that is rejected changes nothing, and the frame is
a multiple of sixteen bytes. The prologue of a generated function is that of the frame of its
locals. If this frame has less than `2 ^ 32` bytes, then behind the prologue the slots lie inside
the reserved frame, apart from one another and from the saved registers of the caller, and each
primitive of the function that accesses the frame accesses precisely the range of a slot. -/
theorem frames_sound (a : Architecture) :
    (∀ (bs : List Binding) (layout : FrameLayout),
      layout = (FrameLayout.reserving a.convention.reserved).afterAll bs →
      layout.Sound a.convention.reserved ∧ 16 ∣ layout.size ∧ layout.next ≤ layout.size ∧
      (∀ name slot more, layout.get? name = some slot →
        (layout.afterAll more).get? name = some slot) ∧
      (∀ b slot layout', layout.declare b = .ok (slot, layout') →
        layout.after b = layout' ∧ layout'.get? b.name = some slot ∧ slot.datatype = b.datatype) ∧
      ∀ b e, layout.declare b = .error e → layout.after b = layout ∧
        ∃ slot, layout.get? b.name = some slot ∧ slot.datatype ≠ b.datatype) ∧
    ∀ (p : Program) (N : Names) (f : FunctionDef) (lo hi : Nat) (strings strings' : List String)
      (u : FunctionCode a.convention.registers), FunctionTable.ofProgram p = .ok N.functions →
      ¬ f.IsAssembly → functionUnit a.convention N lo strings f = .ok (u, hi, strings') →
      ∃ layout, layout = (FrameLayout.reserving a.convention.reserved).afterAll f.locals ∧
        (∀ frame, .prologue frame ∈ u.code ↔ frame = layout.size) ∧
        (layout.size < 2 ^ 32 → ∀ labels m, ∃ m₁,
          a.perform labels (.prologue layout.size) m = some m₁ ∧
          a.Reserves layout.size m m₁ ∧ a.Houses layout m₁ ∧
          ∀ q ∈ u.code, ∀ access, q.local? = some access → ∃ name slot,
            layout.get? name = some slot ∧
            access = (slot.offset, slot.datatype.size) ∧
            a.ConfinedTo labels q slot (a.framePointer m₁)) := by
  constructor
  · rintro bs layout rfl
    refine ⟨FrameLayout.sound_afterAll _ bs, FrameLayout.dvd_size _, FrameLayout.next_le_size _,
      fun name slot more hslot => FrameLayout.get?_afterAll hslot more,
      fun b slot layout' h => ⟨FrameLayout.after_of_declare h, FrameLayout.get?_of_declare h⟩,
      fun b e h => ?_⟩
    exact ⟨by rw [FrameLayout.after, h], (FrameLayout.declare_eq_error_iff.1 h).2⟩
  · intro p N f lo hi strings strings' u hfunctions hf hunit
    have hN : N.Keyed := fun _ _ hf => (FunctionTable.mem_of_get? hfunctions hf).2
    obtain ⟨inner, s, ⟨A, -, -, hlocals, hA, -⟩, -, -, hcode, -⟩ :=
      functionUnit_statements false hN hf hunit
    have hlayout : s.layout = (FrameLayout.reserving a.convention.reserved).afterAll f.locals :=
      hlocals ▸ hA.layout_eq
    rw [hcode]
    refine ⟨s.layout, hlayout, fun frame => prologue_mem_framed_iff hA.isInner_eq,
      fun hsize labels m => ?_⟩
    obtain ⟨m₁, hprologue, hreserves⟩ := a.exists_reserves labels s.layout.size m
    have hsound : s.layout.Sound a.convention.reserved :=
      hlayout ▸ FrameLayout.sound_afterAll _ f.locals
    refine ⟨m₁, hprologue, hreserves, hreserves.houses hsound hsize, fun q hq access haccess => ?_⟩
    obtain ⟨name, slot, hslot, rfl⟩ := hA.accesses access
      (List.mem_filterMap.2 ⟨q, mem_of_local? hq haccess, haccess⟩)
    exact ⟨name, slot, hslot, rfl, a.confinedTo_of_local? haccess labels _⟩

/-- A function with locals of both sizes. -/
def mixedLocals : FunctionDef :=
  ⟨"spark", {}, [⟨"flag", .chr⟩, ⟨"count", .int⟩], .int, .statements [
    .declare ⟨"mark", .chr⟩ (some (.lookup "flag")), .increment "mark",
    .return_ (some (.lookup "count"))]⟩

/-- The frame of `mixedLocals` has 48 bytes on RISC-V, with slots at 16, 24 and 32. -/
theorem frames_sound_mixedLocals : ∃ N u hi strings,
    FunctionTable.ofProgram ⟨[.function mixedLocals]⟩ = .ok N.functions ∧ ¬ mixedLocals.IsAssembly ∧
      functionUnit Riscv.convention N 0 [] mixedLocals = .ok (u, hi, strings) ∧
      ∃ layout, layout.size = 48 ∧ layout.get? "mark" = some ⟨.chr, 32⟩ ∧ .prologue 48 ∈ u.code ∧
        ∀ labels m, ∃ m₁, Architecture.riscv.perform labels (.prologue 48) m = some m₁ ∧
          Architecture.riscv.Houses layout m₁ := by
  have hfunctions : (FunctionTable.ofProgram ⟨[.function mixedLocals]⟩).toOption.isSome = true := by
    decide +kernel
  obtain ⟨functions, hfunctions⟩ := Fallible.exists_ok_of_isSome hfunctions
  have hunit : (functionUnit Riscv.convention ⟨default, functions⟩ 0
      [] mixedLocals).toOption.isSome = true := by
    rfl
  obtain ⟨⟨u, hi, strings⟩, hunit⟩ := Fallible.exists_ok_of_isSome hunit
  have hbody : ¬ mixedLocals.IsAssembly := by
    rintro ⟨text, h⟩
    cases h
  obtain ⟨layout, hlayout, hprologue, hframe⟩ := (frames_sound .riscv).2 ⟨[.function mixedLocals]⟩
    ⟨default, functions⟩ mixedLocals 0 hi [] strings u hfunctions hbody hunit
  have hsize : layout.size = 48 := by
    rw [hlayout]
    rfl
  rw [hsize] at hframe hprologue
  refine ⟨_, u, hi, strings, hfunctions, hbody, hunit, layout, hsize, ?_, (hprologue 48).2 rfl,
    fun labels m => ?_⟩
  · rw [hlayout]
    rfl
  · obtain ⟨m₁, hperform, -, hhouses, -⟩ := hframe (by simp) labels m
    exact ⟨m₁, hperform, hhouses⟩

end Native

end Firestorm
