import Firestorm.Native.Riscv.Lower
import Firestorm.Proofs.Native.Labels
import Firestorm.Proofs.Native.Processor

/-!
# The meaning of RISC-V instructions

Every instruction that neither branches nor leaves the program has a meaning as a step of a
processor. A register may have two names, so that the registers of the processor are the numbers.
The first one is always zero.

## Main definitions

* `Riscv.State`, `Riscv.step`, `Riscv.run`.

## Main results

* `Riscv.reaches_of_run`, `Riscv.run_prologue`, `Riscv.run_access`.
-/

namespace Firestorm.Riscv

open Native (Place Primitive Processor Span readSpan)

variable {r : Reg}

/-- The states of the processor, which has no flags. -/
abbrev State := Processor (Fin 32) Unit

/-- The bytes of an operand in memory. -/
def Width.size : Width → Nat
  | byte => 1
  | double => 8

/-- The value of an operation on two registers. A division by zero gives a word of ones and leaves
the dividend as the remainder. -/
def AluOp.eval (op : AluOp) (a b : Word) : Word :=
  match op with
  | add => a + b
  | sub => a - b
  | mul => a * b
  | div => if b = 0 then -1 else a / b
  | rem => if b = 0 then a else a % b
  | and => a &&& b
  | or => a ||| b
  | xor => a ^^^ b
  | sll => a <<< b
  | sra => a >>> b

/-- The word in a register. -/
def get (m : State) (r : Reg) : Word :=
  if r.number.val = 0 then 0 else m.registers r.number

/-- The state in which a register holds another word. -/
def put (m : State) (r : Reg) (value : Word) : State :=
  if r.number.val = 0 then m else m.set r.number value

/-- The bytes at an offset from a base. -/
def operand (m : State) (width : Width) (offset : Nat) (base : Reg) : Span :=
  .offset (get m base) offset width.size

section

variable (labels : String → Word)

/-- The meaning of an instruction. One that directs control has none. -/
def step (i : Instruction) (m : State) : Option State :=
  match i with
  | .loadConst target value => some (put m target (Int64.ofInt value))
  | .loadLabel target label => some (put m target (labels label))
  | .alu op target left right => some (put m target (op.eval (get m left) (get m right)))
  | .addConst target source value => some (put m target (get m source + Int64.ofInt value))
  | .load width target offset base =>
    let source := operand m width offset base
    some (put (m.touch source) target (readSpan m.memory source))
  | .store width source offset base => some (m.store (operand m width offset base) (get m source))
  | .move target source => some (put m target (get m source))
  | .isZero target source => some (put m target (Word.ofBool (get m source == 0)))
  | .negate target source => some (put m target (-get m source))
  | .complement target source => some (put m target (~~~get m source))
  | .branch .. | .branchIfZero .. | .branchIfNotZero .. | .jump _ | .call _ | .ret | .ecall => none

/-- The instruction of a line of code, if the line is not a label. -/
def Line.code? : Line → Option (Option Instruction)
  | .instruction i => some (some i)
  | .label _ => some none
  | _ => none

/-- The meaning of a line of code. -/
def Line.step (m : State) (line : Line) : Option State :=
  m.stepLine Line.code? (Riscv.step labels) line

/-- The meaning of lines of code. -/
def run (lines : List Line) (m : State) : Option State :=
  Processor.runLines Line.code? (step labels) lines m

end

variable {labels : String → Word} {m m' : State}

/-! ### Registers -/

@[simp] theorem memory_put (m : State) (r : Reg) (value : Word) :
    (put m r value).memory = m.memory := by
  unfold put
  split <;> rfl

@[simp] theorem accesses_put (m : State) (r : Reg) (value : Word) :
    (put m r value).accesses = m.accesses := by
  unfold put
  split <;> rfl

theorem get_put_self (h : r.number.val ≠ 0) (m : State) (value : Word) :
    get (put m r value) r = value := by
  simp [get, put, h, Processor.set]

theorem get_put_of_ne {r' : Reg} (h : r'.number ≠ r.number) (m : State) (value : Word) :
    get (put m r value) r' = get m r' := by
  unfold put
  split
  · rfl
  · simp [get, Processor.set, h]

@[simp] theorem get_store (m : State) (s : Span) (value : Word) (r : Reg) :
    get (m.store s value) r = get m r :=
  rfl

theorem operand_put {base : Reg} (h : base.number ≠ r.number) (m : State) (value : Word)
    (width : Width) (offset : Nat) :
    operand (put m r value) width offset base = operand m width offset base := by
  rw [operand, get_put_of_ne h, operand]

/-! ### Accesses to memory -/

/-- An instruction changes the memory only where it accesses it. -/
theorem reaches_of_step {i : Instruction} (h : step labels i m = some m') :
    ∃ spans, Processor.Reaches spans m m' := by
  cases i with
  | load width target offset base =>
    cases h
    exact ⟨_, .trans (.touch ..) (.of_eq (accesses_put ..) (memory_put ..))⟩
  | store width source offset base =>
    cases h
    exact ⟨_, .store ..⟩
  | branch | branchIfZero | branchIfNotZero | jump | call | ret | ecall => cases h
  | _ =>
    cases h
    exact ⟨[], .of_eq (accesses_put ..) (memory_put ..)⟩

/-- Lines change the memory only where they access it. -/
theorem reaches_of_run {lines : List Line} (h : run labels lines m = some m') :
    ∃ spans, Processor.Reaches spans m m' :=
  Processor.Reaches.exists_of_runLines reaches_of_step h

/-! ### Frames -/

theorem run_append (labels : String → Word) (lines more : List Line) (m : State) :
    run labels (lines ++ more) m = (run labels lines m).bind (run labels more) :=
  List.foldlM_append

theorem ofInt_neg_eq (n : Nat) (a : Word) : a + Int64.ofInt (-(n : Int)) = a - Int64.ofNat n := by
  rw [Int64.ofInt_neg, Int64.sub_eq_add_neg]
  rfl

/-- Adding to the stack pointer changes no register but the stack pointer and a scratch register. -/
theorem run_adjustStack (labels : String → Word) (delta : Int) (m : State) :
    ∃ m', run labels ((adjustStack delta).map .instruction) m = some m' ∧
      get m' .sp = get m .sp + Int64.ofInt delta ∧ get m' .ra = get m .ra ∧
      get m' framePointer = get m framePointer ∧ m'.memory = m.memory ∧
      m'.accesses = m.accesses := by
  unfold adjustStack
  split
  · exact ⟨_, rfl, get_put_self (by decide) .., get_put_of_ne (by decide) ..,
      get_put_of_ne (by decide) .., memory_put .., accesses_put ..⟩
  · refine ⟨_, rfl, ?_, ?_, ?_, ?_, ?_⟩
    · rw [get_put_self (by decide), get_put_self (by decide), get_put_of_ne (by decide)]
      rfl
    · rw [get_put_of_ne (by decide), get_put_of_ne (by decide)]
    · rw [get_put_of_ne (by decide), get_put_of_ne (by decide)]
    · rw [memory_put, memory_put]
    · rw [accesses_put, accesses_put]

/-- The prologue of a function reserves the frame and saves the return address and the frame pointer
of the caller in its first two words. -/
theorem run_prologue (labels : String → Word) (frame : Nat) (m : State) :
    ∃ m', run labels (lower (.prologue frame)) m = some m' ∧
      get m' framePointer = get m .sp - Int64.ofNat frame ∧ get m' .sp = get m' framePointer ∧
      m'.accesses = m.accesses ++
      [.offset (get m' framePointer) 0 8, .offset (get m' framePointer) 8 8] ∧
      readSpan m'.memory (.offset (get m' framePointer) 0 8) = get m .ra ∧
      readSpan m'.memory (.offset (get m' framePointer) 8 8) = get m framePointer := by
  obtain ⟨m₁, hrun, hsp, hra, hfp, -, haccesses⟩ := run_adjustStack labels (-(frame : Int)) m
  have hlines : lower (.prologue frame) = (adjustStack (-(frame : Int))).map .instruction ++
      [.instruction (.store .double .ra 0 .sp), .instruction (.store .double framePointer 8 .sp),
        .instruction (.move framePointer .sp)] := List.map_append
  rw [hlines, run_append, hrun]
  refine ⟨_, rfl, ?_, ?_, ?_, ?_, ?_⟩
  · rw [get_put_self (by decide), get_store, get_store, hsp, ofInt_neg_eq]
  · rw [get_put_self (by decide), get_put_of_ne (by decide)]
  · rw [get_put_self (by decide), accesses_put, get_store, get_store, ← haccesses]
    exact List.append_assoc ..
  · rw [get_put_self (by decide), memory_put, get_store, get_store, ← hra]
    -- The second word is written behind the first one.
    have hapart : ∀ t ∈ [Span.offset (get m₁ .sp) 8 8], (Span.offset (get m₁ .sp) 0 8).Apart t :=
      List.forall_mem_singleton.2 (Span.apart_offset (by simp) (by simp) (.inl (by simp)))
    refine ((Processor.Reaches.store ..).readSpan_eq (by simp [Span.offset]) hapart).trans ?_
    exact Native.readSpan_writeSpan_word ..
  · rw [get_put_self (by decide), memory_put, get_store, get_store, ← hfp]
    exact Native.readSpan_writeSpan_word ..

/-- A local is accessible behind the instructions that locate it, and a scratch register is not its
base. -/
theorem run_locate (labels : String → Word) {offset offset' : Nat} {before : List Instruction}
    {base : Reg} (h : locate (.frame offset) = (before, offset', base)) (m : State) :
    ∃ m', run labels (before.map .instruction) m = some m' ∧ m'.accesses = m.accesses ∧
      scratch.number ≠ base.number ∧
      ∀ width, operand m' width offset' base = .offset (get m framePointer) offset width.size := by
  unfold locate at h
  dsimp only at h
  split at h
  · cases h
    exact ⟨m, rfl, rfl, by decide, fun _ => rfl⟩
  · cases h
    refine ⟨_, rfl, ?_, by decide, fun width => ?_⟩
    · rw [accesses_put, accesses_put]
    · have hstart : Int64.ofInt offset + get m framePointer + Int64.ofNat 0 =
          get m framePointer + Int64.ofNat offset := by
        rw [Int64.add_comm (Int64.ofInt _)]
        exact Int64.add_zero _
      rw [operand, get_put_self (by decide), get_put_self (by decide), get_put_of_ne (by decide)]
      exact congrArg (Span.mk · width.size) hstart

theorem size_widthOf {size : Nat} (h : size = 1 ∨ size = 8) : (widthOf size).size = size :=
  Native.size_ite Width.size rfl rfl h

/-- An access to a local touches the bytes at its offset from the frame pointer, once or twice. -/
theorem run_access {q : Primitive 13} {offset size : Nat} (hq : q.local? = some (offset, size))
    (hsize : size = 1 ∨ size = 8) (labels : String → Word) (m : State) :
    ∃ m' k, run labels (lower q) m = some m' ∧
      m'.accesses = m.accesses ++
      List.replicate (k + 1) (.offset (get m framePointer) offset size) := by
  rcases hlocate : locate (.frame offset) with ⟨before, offset', base⟩
  obtain ⟨m₁, hrun, haccesses, hscratch, hoperand⟩ := run_locate labels hlocate m
  have hoperand := size_widthOf hsize ▸ hoperand (widthOf size)
  rw [← hoperand, ← haccesses]
  have hrest : ∀ rest, run labels ((before ++ rest).map .instruction) m =
      run labels (rest.map .instruction) m₁ := by
    intro rest
    rw [List.map_append, run_append, hrun]
    rfl
  rcases Primitive.local?_cases hq with ⟨target, rfl⟩ | ⟨value, rfl⟩ | ⟨delta, rfl⟩
  · have hcode : code (.load target (.frame offset) size) =
        before ++ [.load (widthOf size) (file target) offset' base] := by
      rw [code, hlocate]
    have hlines := congrArg (List.map Line.instruction) hcode
    exact ⟨_, 0, (congrArg (run labels · m) hlines).trans (hrest _), accesses_put ..⟩
  · have hcode : code (.store (.frame offset) value size) =
        before ++ [.store (widthOf size) (file value) offset' base] := by
      rw [code, hlocate]
    have hlines := congrArg (List.map Line.instruction) hcode
    exact ⟨_, 0, (congrArg (run labels · m) hlines).trans (hrest _), rfl⟩
  · have hcode : code (.step (.frame offset) size delta) =
        before ++ [.load (widthOf size) scratch offset' base, .addConst scratch scratch delta,
          .store (widthOf size) scratch offset' base] := by
      rw [code, hlocate]
    have hlines := congrArg (List.map Line.instruction) hcode
    refine ⟨_, 1, (congrArg (run labels · m) hlines).trans (hrest _), ?_⟩
    -- The store finds the base as the load found it.
    rw [operand_put hscratch.symm, operand_put hscratch.symm, Processor.accesses_store,
      accesses_put, accesses_put, Processor.accesses_touch, List.append_assoc]
    rfl

end Firestorm.Riscv
