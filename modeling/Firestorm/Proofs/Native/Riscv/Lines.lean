import Firestorm.Proofs.Native.Bodies
import Firestorm.Proofs.Native.Riscv.Execution

/-!
# The lines of bodies on RISC-V

The constants of additions, loads and stores have twelve bits, so that larger ones go through a
register. The lines inside a body leave the frame pointer alone and move the stack pointer by
multiples of sixteen, whatever registers are put aside around calls.

## Main definitions

* `Riscv.Line.Encodable`, `Riscv.Aligned`, `Riscv.Line.Steady`.

## Main results

* `Riscv.encodable_lower`, `Riscv.steady_lower`.
* `Riscv.Instruction.Leaves.get_eq`, `Riscv.Instruction.KeepsAligned.aligned`: what a step keeps.
-/

namespace Firestorm.Riscv

open Native (Place Primitive)

variable {value : Int}

/-! ### Constants -/

/-- The constant of an addition, or the offset of a load or a store, has twelve bits and a sign. -/
def Instruction.Encodable : Instruction → Prop
  | .addConst _ _ value => -2048 ≤ value ∧ value ≤ 2047
  | .load _ _ offset _ | .store _ _ offset _ => offset ≤ 2047
  | _ => True

/-- The constants of a line can be part of its instruction. -/
def Line.Encodable : Line → Prop
  | .instruction i => i.Encodable
  | _ => True

theorem fitsImmediate_iff : fitsImmediate value = true ↔ -2048 ≤ value ∧ value ≤ 2047 := by
  simp only [fitsImmediate, Bool.and_eq_true, decide_eq_true_eq]
  omega

/-- A variable is found at an offset of twelve bits. -/
theorem encodable_locate (place : Place) :
    (∀ i ∈ (locate place).1, i.Encodable) ∧ (locate place).2.1 ≤ 2047 := by
  cases place with
  | data label => simp [locate, Instruction.Encodable]
  | frame offset =>
    unfold locate
    dsimp only
    split
    · next hfits =>
      have hoffset := (fitsImmediate_iff.1 hfits).2
      exact ⟨List.forall_mem_nil _, Int.ofNat_le.1 hoffset⟩
    · simp [Instruction.Encodable]

theorem encodable_adjustStack (delta : Int) : ∀ i ∈ adjustStack delta, i.Encodable := by
  unfold adjustStack
  split
  · next hfits => exact List.forall_mem_singleton.2 (fitsImmediate_iff.1 hfits)
  · simp [Instruction.Encodable]

theorem spillSize_le {count : Nat} (h : count < 13) : spillSize count ≤ 112 := by
  unfold spillSize
  omega

theorem lt_length_of_mem_zipIdx {α : Type} {xs : List α} {x : α × Nat} (h : x ∈ xs.zipIdx) :
    x.2 < xs.length :=
  (List.getElem?_eq_some_iff.1 (List.mem_zipIdx_iff_getElem?.1 h)).1

theorem encodable_save {registers : List Reg} (h : registers.length < 13) :
    ∀ i ∈ save registers, i.Encodable := by
  have hsize := spillSize_le h
  unfold save
  split
  · exact List.forall_mem_nil _
  · refine List.forall_mem_cons.2 ⟨?_, List.forall_mem_map.2 fun x hx => ?_⟩
    · simp only [Instruction.Encodable]
      omega
    · have hlt := lt_length_of_mem_zipIdx hx
      simp only [Instruction.Encodable]
      omega

theorem encodable_restore {registers : List Reg} (h : registers.length < 13) :
    ∀ i ∈ restore registers, i.Encodable := by
  have hsize := spillSize_le h
  unfold restore
  split
  · exact List.forall_mem_nil _
  · refine List.forall_mem_append.2 ⟨List.forall_mem_map.2 fun x hx => ?_,
      List.forall_mem_singleton.2 ?_⟩
    · have hlt := lt_length_of_mem_zipIdx hx
      simp only [Instruction.Encodable]
      omega
    · simp only [Instruction.Encodable]
      omega

/-- The constants in the lines of a primitive have twelve bits. -/
theorem encodable_lower {q : Primitive 13} {function : String} {targets : List String}
    (h : q.Regular function targets) : ∀ line ∈ lower q, line.Encodable := by
  have hcode {is : List Instruction} (his : ∀ i ∈ is, i.Encodable) :
      ∀ line ∈ is.map Line.instruction, line.Encodable := List.forall_mem_map.2 his
  cases q with
  | prologue frame =>
    refine hcode (List.forall_mem_append.2 ⟨encodable_adjustStack _, ?_⟩)
    simp [Instruction.Encodable]
  | epilogue frame noreturn =>
    refine hcode (List.forall_mem_append.2
      ⟨List.forall_mem_append.2 ⟨?_, encodable_adjustStack _⟩, ?_⟩)
    · simp [Instruction.Encodable]
    · cases noreturn <;> simp [Instruction.Encodable]
  | load target place size | store place value size =>
    obtain ⟨hbefore, hoffset⟩ := encodable_locate place
    exact hcode (List.forall_mem_append.2 ⟨hbefore, List.forall_mem_singleton.2 hoffset⟩)
  | step place size delta =>
    obtain ⟨hbefore, hoffset⟩ := encodable_locate place
    have hdelta : -2048 ≤ delta ∧ delta ≤ 2047 := by
      rcases h with rfl | rfl <;> simp
    refine hcode (List.forall_mem_append.2 ⟨hbefore, ?_⟩)
    simpa [Instruction.Encodable] using ⟨hoffset, hdelta, hoffset⟩
  | loadElement base index size | storeElement base index value size =>
    refine hcode ?_
    simp only [code, scaleIndex]
    split <;> simp [Instruction.Encodable]
  | save registers => exact hcode (encodable_save ((List.length_map _).trans_lt h))
  | restore registers => exact hcode (encodable_restore ((List.length_map _).trans_lt h))
  | unary op target => cases op <;> simp [lower, code, Line.Encodable, Instruction.Encodable]
  | datum label value => cases value <;> simp [lower, Line.Encodable]
  | compare op target operand scratch label =>
    cases op <;> simp [lower, compareLines, branchOn, Line.Encodable, Instruction.Encodable]
  | entry function => simp [lower, entryCode, preserved, Line.Encodable, Instruction.Encodable]
  | trap name => simp [lower, trapCode, Line.Encodable, Instruction.Encodable]
  | _ => simp [lower, code, Line.Encodable, Instruction.Encodable]

/-! ### Alignment -/

/-- A word is a multiple of sixteen. -/
def Aligned (w : Word) : Prop :=
  16 ∣ w.toBitVec.toNat

theorem Aligned.add {w : Word} (h : Aligned w) (hvalue : 16 ∣ value) :
    Aligned (w + Int64.ofInt value) := by
  have hsum : (w + Int64.ofInt value).toBitVec = w.toBitVec + BitVec.ofInt 64 value := rfl
  unfold Aligned at *
  rw [hsum, BitVec.toNat_add, BitVec.toNat_ofInt]
  omega

theorem Aligned.sub {w : Word} (h : Aligned w) {n : Nat} (hn : 16 ∣ n) :
    Aligned (w - Int64.ofNat n) := by
  rw [← ofInt_neg_eq]
  exact h.add (Int.dvd_neg.2 (Int.ofNat_dvd.2 hn))

/-- The register that an instruction writes. -/
def Instruction.written? : Instruction → Option Reg
  | .loadConst target _ | .loadLabel target _ | .alu _ target _ _ | .addConst target _ _ | .load
    _ target _ _ |
    .move target _ | .isZero target _ | .negate target _ | .complement target _ => some target
  | _ => none

/-- An instruction does not write a register. -/
def Instruction.Leaves (r : Reg) (i : Instruction) : Prop :=
  ∀ target ∈ i.written?, r.number ≠ target.number

/-- An instruction does not write the stack pointer, or adds a multiple of sixteen to it. -/
def Instruction.KeepsAligned (i : Instruction) : Prop :=
  i.Leaves .sp ∨ ∃ value, i = .addConst .sp .sp value ∧ 16 ∣ value

section

variable {labels : String → Word} {m m' : State} {i : Instruction} {r : Reg}

theorem Instruction.Leaves.get_eq (hi : i.Leaves r) (h : step labels i m = some m') :
    get m' r = get m r := by
  cases i with
  | store width source offset base =>
    cases h
    exact get_store ..
  | branch | branchIfZero | branchIfNotZero | jump | call | ret | ecall => cases h
  | _ =>
    cases h
    exact get_put_of_ne (hi _ rfl) ..

theorem Instruction.KeepsAligned.aligned (hi : i.KeepsAligned) (h : step labels i m = some m')
    (hm : Aligned (get m .sp)) : Aligned (get m' .sp) := by
  rcases hi with hi | ⟨value, rfl, hvalue⟩
  · rwa [hi.get_eq h]
  · cases h
    rw [get_put_self (by decide)]
    exact hm.add hvalue

end

variable {i : Instruction}

theorem Instruction.leaves_of_written? {r : Reg} (h : i.written? = none) : i.Leaves r := by
  simp [Leaves, h]

theorem dvd_spillSize (count : Nat) : 16 ∣ spillSize count :=
  Nat.dvd_mul_left ..

/-! ### Lines of bodies -/

/-- An instruction inside a body: it keeps the frame pointer and the alignment of the stack, and
does not return. -/
def Instruction.Steady (i : Instruction) : Prop :=
  i.KeepsAligned ∧ i.Leaves framePointer ∧ i ≠ .ret

/-- A line inside a body. -/
def Line.Steady : Line → Prop
  | .instruction i => i.Steady
  | _ => True

/-- A register that is neither the stack pointer nor the frame pointer can be written. -/
theorem steady_of_written? {target : Reg} (h : i.written? = some target)
    (hsp : Reg.sp.number ≠ target.number) (hfp : framePointer.number ≠ target.number) :
    i.Steady := by
  refine ⟨.inl ?_, ?_, ?_⟩
  · simpa [Instruction.Leaves, h] using hsp
  · simpa [Instruction.Leaves, h] using hfp
  · rintro rfl
    cases h

theorem number_file (r : Fin 13) :
    Reg.sp.number ≠ (file r).number ∧ framePointer.number ≠ (file r).number := by
  decide +revert

theorem steady_file {r : Fin 13} (h : i.written? = some (file r)) : i.Steady :=
  steady_of_written? h (number_file r).1 (number_file r).2

theorem steady_scratch (h : i.written? = some scratch) : i.Steady :=
  steady_of_written? h (by decide) (by decide)

theorem steady_addressRegister (h : i.written? = some addressRegister) : i.Steady :=
  steady_of_written? h (by decide) (by decide)

theorem steady_of_written?_eq_none (h : i.written? = none) (hret : i ≠ .ret) : i.Steady :=
  ⟨.inl (Instruction.leaves_of_written? h), Instruction.leaves_of_written? h, hret⟩

theorem steady_addConst_sp (h : 16 ∣ value) : Instruction.Steady (.addConst .sp .sp value) := by
  refine ⟨.inr ⟨value, rfl, h⟩, ?_, by simp⟩
  simp [Instruction.Leaves, Instruction.written?, framePointer, Reg.number]

theorem steady_locate (place : Place) : ∀ i ∈ (locate place).1, i.Steady := by
  cases place with
  | data label => exact List.forall_mem_singleton.2 (steady_addressRegister rfl)
  | frame offset =>
    unfold locate
    dsimp only
    split
    · exact List.forall_mem_nil _
    · simpa using ⟨steady_addressRegister rfl, steady_addressRegister rfl⟩

theorem steady_scaleIndex (index : Fin 13) (size : Nat) :
    ∀ i ∈ scaleIndex (file index) size, i.Steady := by
  unfold scaleIndex
  split
  · exact List.forall_mem_nil _
  · simpa using ⟨steady_scratch rfl, steady_file rfl⟩

theorem steady_save (registers : List (Fin 13)) : ∀ i ∈ save (registers.map file), i.Steady := by
  unfold save
  split
  · exact List.forall_mem_nil _
  · refine List.forall_mem_cons.2 ⟨steady_addConst_sp ?_, List.forall_mem_map.2 fun x _ => ?_⟩
    · exact Int.dvd_neg.2 (Int.ofNat_dvd.2 (dvd_spillSize _))
    · exact steady_of_written?_eq_none rfl (by simp)

theorem steady_restore (registers : List (Fin 13)) :
    ∀ i ∈ restore (registers.map file), i.Steady := by
  unfold restore
  split
  · exact List.forall_mem_nil _
  · refine List.forall_mem_append.2 ⟨List.forall_mem_map.2 fun x hx => ?_,
      List.forall_mem_singleton.2 ?_⟩
    · obtain ⟨r, -, hr⟩ := List.mem_map.1 (List.fst_mem_of_mem_zipIdx hx)
      exact steady_file (congrArg some hr.symm)
    · exact steady_addConst_sp (Int.ofNat_dvd.2 (dvd_spillSize _))

/-- The lines of the primitives of a body are steady. -/
theorem steady_lower {q : Primitive 13} (h : q.isInner = true) : ∀ line ∈ lower q, line.Steady := by
  have hcode {is : List Instruction} (his : ∀ i ∈ is, i.Steady) :
      ∀ line ∈ is.map Line.instruction, line.Steady := List.forall_mem_map.2 his
  cases q with
  | text | data | exportSymbol | prologue | epilogue | datum | string | entry | trap | verbatim =>
    cases h
  | label name => exact List.forall_mem_singleton.2 trivial
  | jump label | jumpIfZero r label | jumpIfNotZero r label | call function =>
    exact hcode (List.forall_mem_singleton.2 (steady_of_written?_eq_none rfl (by simp)))
  | loadConst target value | loadAddress target label | binary op target operand | not target
  | copy target source =>
    exact hcode (List.forall_mem_singleton.2 (steady_file rfl))
  | load target place size =>
    exact hcode (List.forall_mem_append.2
      ⟨steady_locate place, List.forall_mem_singleton.2 (steady_file rfl)⟩)
  | store place value size =>
    exact hcode (List.forall_mem_append.2 ⟨steady_locate place,
      List.forall_mem_singleton.2 (steady_of_written?_eq_none rfl (by simp))⟩)
  | step place size delta =>
    refine hcode (List.forall_mem_append.2 ⟨steady_locate place, ?_⟩)
    simpa using ⟨steady_scratch rfl, steady_scratch rfl, steady_of_written?_eq_none rfl (by simp)⟩
  | loadElement base index size =>
    refine hcode (List.forall_mem_append.2 ⟨steady_scaleIndex index size, ?_⟩)
    simpa using ⟨steady_file rfl, steady_file rfl⟩
  | storeElement base index value size =>
    refine hcode (List.forall_mem_append.2 ⟨steady_scaleIndex index size, ?_⟩)
    simpa using ⟨steady_file rfl, steady_of_written?_eq_none rfl (by simp)⟩
  | compare op target operand scratch label =>
    have hbranch : (branchOn op (file target) (file operand) label).Steady := by
      cases op <;> exact steady_of_written?_eq_none rfl (by simp [branchOn])
    have hconst (value : Int) : (Instruction.loadConst (file scratch) value).Steady :=
      steady_file rfl
    have hmove : (Instruction.move (file target) (file scratch)).Steady := steady_file rfl
    simpa [lower, compareLines, Line.Steady] using ⟨hconst 1, hbranch, hconst 0, hmove⟩
  | unary op target =>
    cases op with
    | plus => exact List.forall_mem_nil _
    | minus | bitNot => exact hcode (List.forall_mem_singleton.2 (steady_file rfl))
  | bitTest target index scratch =>
    refine hcode ?_
    simpa [code] using ⟨steady_file rfl, steady_file rfl, steady_file rfl⟩
  | save registers => exact hcode (steady_save registers)
  | restore registers => exact hcode (steady_restore registers)

end Firestorm.Riscv
