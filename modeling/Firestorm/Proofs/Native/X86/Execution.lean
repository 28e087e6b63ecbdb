import Mathlib.Algebra.Group.Int.Defs
import Firestorm.Native.X86.Lower
import Firestorm.Proofs.Native.Labels
import Firestorm.Proofs.Native.Processor

/-!
# The meaning of x86-64 instructions

Every instruction that neither jumps nor leaves the program has a meaning as a step of a processor.
The flags are kept as the two words that were compared last. Arithmetic changes them in ways that no
code relies on, so that they are unknown behind it.

## Main definitions

* `X86.State`, `X86.step`, `X86.run`.

## Main results

* `X86.reaches_of_run`, `X86.run_prologue`, `X86.run_access`.
-/

namespace Firestorm.X86

open Native (Place Primitive Processor Span readSpan)

/-- The states of the processor, with the words that were compared last. -/
abbrev State := Processor Reg (Option (Word × Word))

/-- The bytes of an operand in memory. -/
def Width.size : Width → Nat
  | byte => 1
  | qword => 8

/-- The value of an operation on two registers. -/
def AluOp.eval (op : AluOp) (a b : Word) : Word :=
  match op with
  | add => a + b
  | sub => a - b
  | imul => a * b
  | and => a &&& b
  | or => a ||| b
  | xor => a ^^^ b

/-- The value of a shift, which uses the lowest six bits of the amount. -/
def ShiftOp.eval (op : ShiftOp) (a amount : Word) : Word :=
  match op with
  | shl => a <<< amount
  | sar => a >>> amount

/-- The quotient and the remainder of a number of two words. There are none if the quotient is not a
word. -/
def quotient? (high low divisor : Word) : Option (Word × Word) :=
  let dividend := high.toInt * 2 ^ 64 + low.toBitVec.toNat
  let quotient := dividend.tdiv divisor.toInt
  if divisor = 0 ∨ quotient < -2 ^ 63 ∨ 2 ^ 63 ≤ quotient then none
  else some (Int64.ofInt quotient, Int64.ofInt (dividend.tmod divisor.toInt))

section

variable (labels : String → Word)

/-- The address that an operand denotes. -/
def Address.resolve (m : State) : Address → Word
  | frame distance => m.registers .rbp - Int64.ofNat distance
  | label name => labels name
  | register r => m.registers r

/-- The bytes that an operand in memory denotes. -/
def operand (m : State) (width : Width) (address : Address) : Span :=
  ⟨address.resolve labels m, width.size⟩

/-- The state in which a register holds the result of arithmetic. -/
def compute (m : State) (r : Reg) (value : Word) : State :=
  { m.set r value with flags := none }

/-- The meaning of an instruction. A division can fail, a use of unknown flags has no meaning, and
neither has an instruction that directs control. -/
def step (i : Instruction) (m : State) : Option State :=
  match i with
  | .push r =>
    let top := m.registers .rsp - 8
    some ((m.store ⟨top, 8⟩ (m.registers r)).set .rsp top)
  | .pop r =>
    let top : Span := ⟨m.registers .rsp, 8⟩
    some (((m.touch top).set .rsp (top.start + 8)).set r (readSpan m.memory top))
  | .mov target source => some (m.set target (m.registers source))
  | .movConst target value => some (m.set target (Int64.ofInt value))
  | .movLabel target label => some (m.set target (labels label))
  | .load target width address =>
    let source := operand labels m width address
    some ((m.touch source).set target (readSpan m.memory source))
  | .store width address source =>
    some (m.store (operand labels m width address) (m.registers source))
  | .increase width address =>
    let target := operand labels m width address
    some { m.store target (readSpan m.memory target + 1) with flags := none }
  | .decrease width address =>
    let target := operand labels m width address
    some { m.store target (readSpan m.memory target - 1) with flags := none }
  | .alu op target source =>
    some (compute m target (op.eval (m.registers target) (m.registers source)))
  | .addConst target value => some (compute m target (m.registers target + Int64.ofNat value))
  | .subConst target value => some (compute m target (m.registers target - Int64.ofNat value))
  | .scale target factor => some (compute m target (m.registers target * Int64.ofNat factor))
  | .shift op target => some (compute m target (op.eval (m.registers target) (m.registers .rcx)))
  | .exchange first second =>
    some ((m.set first (m.registers second)).set second (m.registers first))
  | .extendSign => some (m.set .rdx (if m.registers .rax < 0 then -1 else 0))
  | .divide =>
    let top : Span := ⟨m.registers .rsp, 8⟩
    (quotient? (m.registers .rdx) (m.registers .rax) (readSpan m.memory top)).map fun result =>
      compute (compute (m.touch top) .rax result.1) .rdx result.2
  | .compare left right => some { m with flags := some (m.registers left, m.registers right) }
  | .test r => some { m with flags := some (m.registers r, 0) }
  | .moveIf condition target source =>
    m.flags.map fun compared =>
      if condition.eval compared.1 compared.2 then m.set target (m.registers source) else m
  | .setEqual target =>
    m.flags.map fun compared =>
      m.set target (m.registers target &&& ~~~255 ||| Word.ofBool (compared.1 == compared.2))
  | .extendLow target => some (m.set target (m.registers target &&& 255))
  | .negate target => some (compute m target (-m.registers target))
  | .complement target => some (m.set target (~~~m.registers target))
  | .jump _ | .jumpIfZero _ | .jumpIfNotZero _ | .call _ | .ret | .syscall => none

/-- The instruction of a line of code, if the line is not a label. -/
def Line.code? : Line → Option (Option Instruction)
  | .instruction i => some (some i)
  | .label _ => some none
  | _ => none

/-- The meaning of lines of code. -/
def run (lines : List Line) (m : State) : Option State :=
  Processor.runLines Line.code? (step labels) lines m

end

variable {labels : String → Word} {m m' : State}

/-! ### Accesses to memory -/

/-- An instruction changes the memory only where it accesses it. -/
theorem reaches_of_step {i : Instruction} (h : step labels i m = some m') :
    ∃ spans, Processor.Reaches spans m m' := by
  cases i with
  | push r | store width address source =>
    cases h
    exact ⟨_, .trans (.store ..) (.of_eq rfl rfl)⟩
  | pop r | load target width address =>
    cases h
    exact ⟨_, .trans (.touch ..) (.of_eq rfl rfl)⟩
  | increase width address | decrease width address =>
    cases h
    exact ⟨_, .trans (.store ..) (.of_eq rfl rfl)⟩
  | divide =>
    simp only [step, Option.map_eq_some_iff] at h
    obtain ⟨result, -, rfl⟩ := h
    exact ⟨_, .trans (.touch ..) (.of_eq rfl rfl)⟩
  | moveIf condition target source =>
    obtain ⟨compared, -, rfl⟩ := Option.map_eq_some_iff.1 h
    refine ⟨[], ?_⟩
    split <;> exact .of_eq rfl rfl
  | setEqual target =>
    obtain ⟨compared, -, rfl⟩ := Option.map_eq_some_iff.1 h
    exact ⟨[], .of_eq rfl rfl⟩
  | jump | jumpIfZero | jumpIfNotZero | call | ret | syscall => cases h
  | _ =>
    cases h
    exact ⟨[], .of_eq rfl rfl⟩

/-- Lines change the memory only where they access it. -/
theorem reaches_of_run {lines : List Line} (h : run labels lines m = some m') :
    ∃ spans, Processor.Reaches spans m m' :=
  Processor.Reaches.exists_of_runLines reaches_of_step h

/-! ### Frames -/

/-- The prologue of a function puts the frame pointer of the caller on the stack and reserves the
frame below it. -/
theorem run_prologue (labels : String → Word) (frame : Nat) (m : State) :
    ∃ m', run labels (lower (.prologue frame)) m = some m' ∧
      m'.registers .rbp = m.registers .rsp - 8 ∧
      m'.registers .rsp = m'.registers .rbp - Int64.ofNat frame ∧
      m'.accesses = m.accesses ++ [⟨m'.registers .rbp, 8⟩] ∧
      readSpan m'.memory ⟨m'.registers .rbp, 8⟩ = m.registers .rbp := by
  rcases Nat.eq_zero_or_pos frame with rfl | hpos
  · refine ⟨_, rfl, rfl, ?_, rfl, Native.readSpan_writeSpan_word ..⟩
    exact (Int64.sub_zero _).symm
  · have hlines : lower (.prologue frame) =
        [.instruction (.push .rbp), .instruction (.mov .rbp .rsp),
        .instruction (.subConst .rsp frame)] := by
      simp [lower, code, hpos]
    rw [hlines]
    exact ⟨_, rfl, rfl, rfl, rfl, Native.readSpan_writeSpan_word ..⟩

theorem size_widthOf {size : Nat} (h : size = 1 ∨ size = 8) : (widthOf size).size = size :=
  Native.size_ite Width.size rfl rfl h

theorem operand_frame {offset size : Nat} (hsize : size = 1 ∨ size = 8) (labels : String → Word)
    (m : State) : operand labels m (widthOf size) (addressOf (.frame offset) size) =
      ⟨m.registers .rbp - Int64.ofNat (offset + size), size⟩ := by
  rw [operand, size_widthOf hsize]
  rfl

/-- An access to a local touches the bytes that lie its offset and its size below the frame
pointer. -/
theorem run_access {q : Primitive 14} {offset size : Nat} (hq : q.local? = some (offset, size))
    (hsize : size = 1 ∨ size = 8) (labels : String → Word) (m : State) :
    ∃ m', run labels (lower q) m = some m' ∧
      m'.accesses = m.accesses ++ [⟨m.registers .rbp - Int64.ofNat (offset + size), size⟩] := by
  rw [← operand_frame hsize labels m]
  rcases Primitive.local?_cases hq with ⟨target, rfl⟩ | ⟨value, rfl⟩ | ⟨delta, rfl⟩
  · exact ⟨_, rfl, rfl⟩
  · exact ⟨_, rfl, rfl⟩
  · by_cases hdelta : delta < 0
    · have hlines : lower (.step (.frame offset) size delta) =
          [.instruction (.decrease (widthOf size) (addressOf (.frame offset) size))] := by
        simp [lower, code, hdelta]
      rw [hlines]
      exact ⟨_, rfl, rfl⟩
    · have hlines : lower (.step (.frame offset) size delta) =
          [.instruction (.increase (widthOf size) (addressOf (.frame offset) size))] := by
        simp [lower, code, hdelta]
      rw [hlines]
      exact ⟨_, rfl, rfl⟩

end Firestorm.X86
