import Mathlib.Algebra.Group.Nat.Defs
import Firestorm.Proofs.Native.RegisterMachine

/-!
# Processors and the memory that they access

The state of a processor has registers, flags and the bytes of a memory whose addresses wrap around.
It also has the ranges of memory that were accessed so far. Nothing else is changed: where a
processor has not accessed its memory, the bytes are what they were.

## Main definitions

* `Native.Span`, `Native.readSpan`, `Native.writeSpan`, `Native.Processor`,
  `Native.Processor.runLines`, `Native.Processor.Reaches`.

## Main results

* `Native.Span.contains_offset_iff`, `Native.Processor.Reaches.exists_of_runLines`,
  `Native.Processor.Reaches.readSpan_eq`.
* `Native.readSpan_writeSpan_word`: a word that is written is read back.
-/

namespace Firestorm.Native

/-! ### Ranges of memory -/

/-- The bytes of memory from an address on. Behind the last address comes the first one. -/
structure Span where
  start : Word
  length : Nat
deriving Repr, DecidableEq

namespace Span

variable {base : Word} {distance length : Nat}

/-- A byte belongs to a range. -/
def Contains (s : Span) (address : Word) : Prop :=
  (address - s.start).toBitVec.toNat < s.length

instance (s : Span) (address : Word) : Decidable (s.Contains address) :=
  inferInstanceAs (Decidable (_ < _))

/-- Every byte of a range belongs to another one. -/
def Inside (s t : Span) : Prop := ∀ address, s.Contains address → t.Contains address

/-- Two ranges have no byte in common. -/
def Apart (s t : Span) : Prop := ∀ address, s.Contains address → ¬ t.Contains address

/-- The range of the given length at a distance from a base. -/
def offset (base : Word) (distance length : Nat) : Span := ⟨base + Int64.ofNat distance, length⟩

theorem offset_zero (base : Word) (length : Nat) : offset base 0 length = ⟨base, length⟩ :=
  congrArg (Span.mk · length) (Int64.add_zero base)

/-- What lies at a distance below an address lies above what is further below it. -/
theorem below_eq_offset (top : Word) {k n : Nat} (h : k ≤ n) (length : Nat) :
    Span.mk (top - Int64.ofNat k) length = offset (top - Int64.ofNat n) (n - k) length := by
  refine congrArg (Span.mk · length) (Int64.toBitVec_inj.1 ?_)
  simp only [Int64.toBitVec_sub, Int64.toBitVec_add, Int64.toBitVec_ofNat']
  bv_omega

/-- A range that does not wrap around contains what is that far from its base. -/
theorem contains_offset_iff {address : Word} (h : distance + length ≤ 2 ^ 64) :
    (offset base distance length).Contains address ↔
      distance ≤ (address - base).toBitVec.toNat ∧ (address - base).toBitVec.toNat < distance +
      length := by
  have hsub : (address - (base + Int64.ofNat distance)).toBitVec.toNat =
      ((address - base).toBitVec - BitVec.ofNat 64 distance).toNat := by
    rw [Int64.toBitVec_sub, Int64.toBitVec_add, Int64.toBitVec_sub, Int64.toBitVec_ofNat']
    bv_omega
  have hlt := (address - base).toBitVec.isLt
  rw [Contains, offset, hsub, BitVec.toNat_sub, BitVec.toNat_ofNat]
  dsimp only
  omega

theorem inside_offset {distance' length' : Nat} (h : distance' + length' ≤ 2 ^ 64)
    (hstart : distance' ≤ distance) (hstop : distance + length ≤ distance' + length') :
    (offset base distance length).Inside (offset base distance' length') := by
  intro address haddress
  rw [contains_offset_iff (hstop.trans h)] at haddress
  rw [contains_offset_iff h]
  omega

theorem apart_offset {distance' length' : Nat} (h : distance + length ≤ 2 ^ 64)
    (h' : distance' + length' ≤ 2 ^ 64)
    (hapart : distance + length ≤ distance' ∨ distance' + length' ≤ distance) :
    (offset base distance length).Apart (offset base distance' length') := by
  intro address haddress haddress'
  rw [contains_offset_iff h] at haddress
  rw [contains_offset_iff h'] at haddress'
  omega

end Span

theorem sub_sub_ofNat (w : Word) (n : Nat) : w - 8 - Int64.ofNat n = w - Int64.ofNat (n + 8) := by
  refine Int64.toBitVec_inj.1 ?_
  simp only [Int64.toBitVec_sub, Int64.toBitVec_ofNat', Int64.toBitVec_ofNat]
  bv_omega

/-! ### The word in a range -/

/-- The word that the bytes of a range spell, the lowest first. -/
def readSpan (memory : Word → UInt8) (s : Span) : Word :=
  readBytes (fun i => memory (s.start + Int64.ofNat i)) 0 s.length

/-- The memory in which the lowest bytes of a word are in a range. -/
def writeSpan (memory : Word → UInt8) (s : Span) (value : Word) (address : Word) : UInt8 :=
  if s.Contains address then
    UInt8.ofNat (value.toBitVec.toNat / 256 ^ (address - s.start).toBitVec.toNat)
  else memory address

variable {s : Span}

theorem writeSpan_of_not_contains {memory : Word → UInt8} {value address : Word}
    (h : ¬ s.Contains address) : writeSpan memory s value address = memory address :=
  if_neg h

theorem sub_start (start : Word) {i : Nat} (h : i < 2 ^ 64) :
    (start + Int64.ofNat i - start).toBitVec.toNat = i := by
  rw [Int64.toBitVec_sub, Int64.toBitVec_add, Int64.toBitVec_ofNat', BitVec.add_comm,
    BitVec.add_sub_cancel, BitVec.toNat_ofNat]
  exact Nat.mod_eq_of_lt h

/-- What is read depends on the bytes of the range only. -/
theorem readSpan_congr {memory memory' : Word → UInt8} (hlength : s.length ≤ 2 ^ 64)
    (h : ∀ address, s.Contains address → memory address = memory' address) :
    readSpan memory s = readSpan memory' s := by
  have hbytes : (List.range s.length).map (fun i => memory (s.start + Int64.ofNat (0 + i))) =
      (List.range s.length).map fun i => memory' (s.start + Int64.ofNat (0 + i)) := by
    refine List.map_congr_left fun i hi => h _ ?_
    have hi := List.mem_range.1 hi
    rw [Span.Contains, Nat.zero_add, sub_start _ (by omega)]
    exact hi
  rw [readSpan, readSpan, readBytes, readBytes, hbytes]

/-- The bytes of a number spell its lowest part. -/
theorem wordOfBytes_digits (value length : Nat) :
    wordOfBytes ((List.range length).map fun i => UInt8.ofNat (value / 256 ^ i)) =
    value % 256 ^ length := by
  induction length generalizing value with
  | zero => simp [wordOfBytes, Nat.mod_one]
  | succ length ih =>
    have hrest : (List.range length).map ((fun i => UInt8.ofNat (value / 256 ^ i)) ∘ Nat.succ) =
        (List.range length).map fun i => UInt8.ofNat (value / 256 / 256 ^ i) := by
      refine List.map_congr_left fun i _ => ?_
      rw [Function.comp_apply, Nat.pow_succ', Nat.div_div_eq_div_mul]
    rw [List.range_succ_eq_map, List.map_cons, List.map_map, hrest, wordOfBytes, ih, Nat.pow_succ',
      Nat.mod_mul]
    simp

/-- Of what is written to a range, the bytes that fit are read back. -/
theorem readSpan_writeSpan (memory : Word → UInt8) (hlength : s.length ≤ 2 ^ 64) (value : Word) :
    readSpan (writeSpan memory s value) s =
    Int64.ofNat (value.toBitVec.toNat % 256 ^ s.length) := by
  have hbytes : (List.range s.length).map
      (fun i => writeSpan memory s value (s.start + Int64.ofNat (0 + i))) =
      (List.range s.length).map fun i => UInt8.ofNat (value.toBitVec.toNat / 256 ^ i) := by
    refine List.map_congr_left fun i hi => ?_
    have hi := List.mem_range.1 hi
    have hsub := sub_start s.start (i := i) (by omega)
    have hcontains : s.Contains (s.start + Int64.ofNat i) := by
      rw [Span.Contains, hsub]
      exact hi
    rw [Nat.zero_add, writeSpan, if_pos hcontains, hsub]
  rw [readSpan, readBytes, hbytes, wordOfBytes_digits]

theorem readSpan_writeSpan_word (memory : Word → UInt8) (start value : Word) :
    readSpan (writeSpan memory ⟨start, 8⟩ value) ⟨start, 8⟩ = value := by
  have hlt : value.toBitVec.toNat < 256 ^ 8 := value.toBitVec.isLt
  rw [readSpan_writeSpan memory (by simp), Nat.mod_eq_of_lt hlt]
  exact Int64.toBitVec_inj.1 (by simp)

/-- A machine accesses bytes and words, and the width of an access is found by its size. -/
theorem size_ite {Width : Type} (size : Width → Nat) {byte word : Width} (hbyte : size byte = 1)
    (hword : size word = 8) {n : Nat} (h : n = 1 ∨ n = 8) :
    size (if n = 1 then byte else word) = n := by
  rcases h with rfl | rfl
  · exact hbyte
  · exact hword

/-! ### Processors -/

/-- The state of a processor: its registers and flags, the bytes of its memory, and the ranges of
the memory that were accessed so far, in order. -/
structure Processor (Register Flags : Type) where
  registers : Register → Word
  flags : Flags
  memory : Word → UInt8
  accesses : List Span

namespace Processor

variable {Register Flags : Type}

/-- The state in which a register holds another word. -/
def set [DecidableEq Register] (m : Processor Register Flags) (r : Register) (value : Word) :
    Processor Register Flags :=
  { m with registers := Function.update m.registers r value }

/-- The state behind reading a range. -/
def touch (m : Processor Register Flags) (s : Span) : Processor Register Flags :=
  { m with accesses := m.accesses ++ [s] }

/-- The state behind writing a word to a range. -/
def store (m : Processor Register Flags) (s : Span) (value : Word) : Processor Register Flags :=
  { m with memory := writeSpan m.memory s value, accesses := m.accesses ++ [s] }

@[simp] theorem registers_set_self [DecidableEq Register] (m : Processor Register Flags)
    (r : Register) (value : Word) : (m.set r value).registers r = value :=
  Function.update_self ..

theorem registers_set_of_ne [DecidableEq Register] {r s : Register} (h : s ≠ r)
    (m : Processor Register Flags) (value : Word) : (m.set r value).registers s = m.registers s :=
  Function.update_of_ne h ..

@[simp] theorem registers_touch (m : Processor Register Flags) (s : Span) :
    (m.touch s).registers = m.registers := rfl

theorem accesses_touch (m : Processor Register Flags) (s : Span) :
    (m.touch s).accesses = m.accesses ++ [s] := rfl

theorem accesses_store (m : Processor Register Flags) (s : Span) (value : Word) :
    (m.store s value).accesses = m.accesses ++ [s] := rfl

section

variable {Instruction Line : Type} (code? : Line → Option (Option Instruction))
  (step : Instruction → Processor Register Flags → Option (Processor Register Flags))

/-- The meaning of a line of a text, of which `code?` says what stands there: an instruction, or a
label, which does nothing. No other line can be run. -/
def stepLine (m : Processor Register Flags) (line : Line) : Option (Processor Register Flags) :=
  match code? line with
  | some (some i) => step i m
  | some none => some m
  | none => none

/-- The meaning of lines of a text. -/
def runLines (lines : List Line) (m : Processor Register Flags) :
    Option (Processor Register Flags) :=
  lines.foldlM (stepLine code? step) m

end

/-- A way from one state to another accesses the given ranges and changes no other byte of the
memory. -/
structure Reaches (spans : List Span) (m m' : Processor Register Flags) : Prop where
  accesses_eq : m'.accesses = m.accesses ++ spans
  memory_eq : ∀ address, (∀ s ∈ spans, ¬ s.Contains address) → m'.memory address = m.memory address

namespace Reaches

variable {spans spans' : List Span} {m m' m'' : Processor Register Flags}

theorem of_eq (haccesses : m'.accesses = m.accesses) (hmemory : m'.memory = m.memory) :
    Reaches [] m m' :=
  ⟨by rw [haccesses, List.append_nil], fun _ _ => by rw [hmemory]⟩

theorem trans (h : Reaches spans m m') (h' : Reaches spans' m' m'') :
    Reaches (spans ++ spans') m m'' where
  accesses_eq := by rw [h'.accesses_eq, h.accesses_eq, List.append_assoc]
  memory_eq address haddress := by
    rw [h'.memory_eq address fun s hs => haddress s (List.mem_append_right _ hs),
      h.memory_eq address fun s hs => haddress s (List.mem_append_left _ hs)]

theorem touch (m : Processor Register Flags) (s : Span) : Reaches [s] m (m.touch s) :=
  ⟨rfl, fun _ _ => rfl⟩

theorem store (m : Processor Register Flags) (s : Span) (value : Word) :
    Reaches [s] m (m.store s value) :=
  ⟨rfl, fun _ haddress => writeSpan_of_not_contains (haddress s (List.mem_singleton_self s))⟩

section

variable {Instruction Line : Type} {code? : Line → Option (Option Instruction)}
  {step : Instruction → Processor Register Flags → Option (Processor Register Flags)}
  (hstep : ∀ {i m m'}, step i m = some m' → ∃ spans, Reaches spans m m')
include hstep

theorem exists_of_stepLine {line : Line} (h : stepLine code? step m line = some m') :
    ∃ spans, Reaches spans m m' := by
  unfold stepLine at h
  split at h
  · exact hstep h
  · cases h
    exact ⟨[], .of_eq rfl rfl⟩
  · cases h

/-- If every instruction changes the memory only where it accesses it, so do lines. -/
theorem exists_of_runLines {lines : List Line} (h : runLines code? step lines m = some m') :
    ∃ spans, Reaches spans m m' := by
  induction lines generalizing m with
  | nil =>
    cases h
    exact ⟨[], .of_eq rfl rfl⟩
  | cons line lines ih =>
    obtain ⟨m₁, hline, hlines⟩ := Option.bind_eq_some_iff.1 h
    obtain ⟨spans, hspans⟩ := exists_of_stepLine hstep hline
    obtain ⟨spans', hspans'⟩ := ih hlines
    exact ⟨_, hspans.trans hspans'⟩

end

/-- A word that is apart from all that is accessed is not changed. -/
theorem readSpan_eq (h : Reaches spans m m') (hlength : s.length ≤ 2 ^ 64)
    (hapart : ∀ t ∈ spans, s.Apart t) : readSpan m'.memory s = readSpan m.memory s :=
  readSpan_congr hlength fun address hcontains =>
    h.memory_eq address fun t ht => hapart t ht address hcontains

end Reaches

end Processor

end Firestorm.Native
