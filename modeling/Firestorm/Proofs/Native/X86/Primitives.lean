import Firestorm.Proofs.Native.X86.Execution
import Firestorm.Proofs.Word.Integers

/-!
# Primitives of several instructions

On x86-64 a shift takes its amount from `cl` and a division works on `rdx:rax`, whichever registers
hold the operands. What the primitive must keep is put aside on the stack and taken back, and what
is put aside depends on whether the target or the operand is one of these registers.

## Main definitions

* `X86.Status`, `X86.Keeps`, `X86.Yields`, `X86.Computes`.

## Main results

* `X86.quotient?_extendSign`, `X86.holds_ofCompare`, `X86.Yields.setAside`, `X86.yields_shiftBy`,
  `X86.yields_divideBy`.
* `X86.computes_primitives`: every primitive of several instructions computes its operation and
  keeps the rest.
-/

namespace Firestorm.X86

open Native (Place Primitive Processor Span readSpan writeSpan)

variable {m : State}

/-! ### Division of words -/

/-- A word and the copies of its sign above it are the word as a number of two words. -/
theorem toInt_extendSign (a : Word) :
    (if a < 0 then -1 else 0 : Word).toInt * 2 ^ 64 + (a.toBitVec.toNat : Int) = a.toInt := by
  have hlt := a.toBitVec.isLt
  have htoInt := BitVec.toInt_eq_toNat_cond a.toBitVec
  rw [Int64.toInt_toBitVec] at htoInt
  have hsign : a < 0 ↔ a.toInt < 0 := Int64.lt_iff_toInt_lt
  by_cases hneg : a < 0
  · have hone : (-1 : Word).toInt = -1 := rfl
    rw [if_pos hneg, hone]
    rw [hsign] at hneg
    split at htoInt <;> omega
  · have hzero : (0 : Word).toInt = 0 := rfl
    rw [if_neg hneg, hzero]
    rw [hsign] at hneg
    split at htoInt <;> omega

/-- A word is divided by another one if the quotient is a word. -/
theorem quotient?_extendSign {a b : Word} (hb : b ≠ 0) (hword : ¬ (a = Int64.minValue ∧ b = -1)) :
    quotient? (if a < 0 then -1 else 0) a b = some (a / b, a % b) := by
  have hquotient : (a / b).toInt = a.toInt.tdiv b.toInt :=
    (Word.toInt_div_eq_ite a b).trans (if_neg hword)
  have hlow := (a / b).le_toInt
  have hhigh := (a / b).toInt_lt
  rw [quotient?, toInt_extendSign, ← hquotient, ← Int64.toInt_mod, Int64.ofInt_toInt,
    Int64.ofInt_toInt, if_neg]
  rintro (hzero | hlow' | hhigh')
  · exact hb hzero
  · omega
  · omega

/-! ### Amounts of shifts -/

/-- A shift to the left uses the lowest six bits of its amount. -/
theorem toBitVec_shl (a amount : Word) :
    (ShiftOp.shl.eval a amount).toBitVec = a.toBitVec <<< (amount.toBitVec.toNat % 64) := by
  rw [← Word.place_eq]
  exact Word.toBitVec_shiftLeft ..

/-- A shift to the right uses the lowest six bits of its amount and copies the sign. -/
theorem toBitVec_sar (a amount : Word) :
    (ShiftOp.sar.eval a amount).toBitVec = a.toBitVec.sshiftRight (amount.toBitVec.toNat % 64) := by
  rw [← Word.place_eq]
  exact Word.toBitVec_shiftRight ..

/-! ### Flags -/

/-- The flags that conditions look at: whether a result is zero or negative, and whether it is wrong
as a signed number. -/
structure Status where
  zero : Bool
  sign : Bool
  overflow : Bool
deriving Repr, DecidableEq

/-- The flags that a comparison of two words sets, which are those of their difference. -/
def Status.ofCompare (a b : Word) : Status :=
  ⟨a - b == 0, a - b < 0, (a - b).toInt ≠ a.toInt - b.toInt⟩

/-- The flags that a test of a word sets, which are those of its conjunction with itself. -/
def Status.ofTest (a : Word) : Status :=
  ⟨a &&& a == 0, a &&& a < 0, false⟩

/-- Whether a condition holds of flags. -/
def Status.holds (s : Status) : CompareOp → Bool
  | .equals => s.zero
  | .notEquals => !s.zero
  | .less => s.sign != s.overflow
  | .lessEquals => s.zero || s.sign != s.overflow
  | .greater => !s.zero && s.sign == s.overflow
  | .greaterEquals => s.sign == s.overflow

theorem sub_eq_zero_iff {a b : Word} : a - b = 0 ↔ a = b := by
  constructor
  · intro h
    rw [← Int64.sub_add_cancel a b, h, Int64.zero_add]
  · rintro rfl
    exact Int64.sub_self a

/-- The sign of a difference and its overflow tell which word is less. -/
theorem sign_ne_overflow (a b : Word) :
    ((Status.ofCompare a b).sign != (Status.ofCompare a b).overflow) = decide (a < b) := by
  have ha := a.le_toInt
  have ha' := a.toInt_lt
  have hb := b.le_toInt
  have hb' := b.toInt_lt
  -- The difference as a word is the difference, or a multiple of `2 ^ 64` away from it.
  have hsub := Int64.toInt_sub a b
  rw [Int.bmod_def] at hsub
  have hlt : a < b ↔ a.toInt < b.toInt := Int64.lt_iff_toInt_lt
  have hneg : a - b < 0 ↔ (a - b).toInt < 0 := Int64.lt_iff_toInt_lt
  rw [Bool.eq_iff_iff, bne_iff_ne, Status.ofCompare, decide_eq_true_eq, Ne, decide_eq_decide,
    hlt, hneg]
  split at hsub <;> omega

/-- A condition holds of the flags of a comparison if it holds of the words. -/
theorem holds_ofCompare (a b : Word) (op : CompareOp) :
    (Status.ofCompare a b).holds op = op.eval a b := by
  have hzero : (Status.ofCompare a b).zero = (a == b) := by
    rw [Bool.eq_iff_iff, Status.ofCompare, beq_iff_eq, beq_iff_eq, sub_eq_zero_iff]
  have hless := sign_ne_overflow a b
  have heq : ((Status.ofCompare a b).sign == (Status.ofCompare a b).overflow) =
      !decide (a < b) := by
    rw [← hless, bne, Bool.not_not]
  cases op with
  | equals => exact hzero
  | notEquals => exact congrArg (!·) hzero
  | less => exact hless
  | lessEquals =>
    rw [Status.holds, hzero, hless, Bool.eq_iff_iff, Bool.or_eq_true, beq_iff_eq]
    simp only [CompareOp.eval, decide_eq_true_eq, Int64.lt_iff_toInt_lt, Int64.le_iff_toInt_le,
      ← Int64.toInt_inj]
    omega
  | greater =>
    rw [Status.holds, hzero, heq, Bool.eq_iff_iff, Bool.and_eq_true, Bool.not_eq_true',
      Bool.not_eq_true', beq_eq_false_iff_ne]
    simp only [CompareOp.eval, decide_eq_true_eq, decide_eq_false_iff_not, gt_iff_lt,
      Int64.lt_iff_toInt_lt, Ne, ← Int64.toInt_inj]
    omega
  | greaterEquals =>
    rw [Status.holds, heq, Bool.eq_iff_iff, Bool.not_eq_true']
    simp only [CompareOp.eval, decide_eq_true_eq, decide_eq_false_iff_not, ge_iff_le, Int64.not_lt]

theorem zero_ofTest (a : Word) : (Status.ofTest a).zero = (a == 0) := by
  rw [Status.ofTest, Int64.and_self]

/-! ### Instructions that put a word into a register -/

/-- Only the given registers have changed, and of the memory at most some bytes below the stack
pointer. -/
structure Keeps (depth : Nat) (changed : List Reg) (m m' : State) : Prop where
  registers_eq : ∀ r, r ∉ changed → m'.registers r = m.registers r
  memory_eq : ∀ address, ¬ Span.Contains ⟨m.registers .rsp - Int64.ofNat depth, depth⟩ address →
    m'.memory address = m.memory address

/-- If the registers apart from the stack pointer hold the given words, instructions put a word into
a target. They may change other registers that are named, and the given number of bytes below the
stack pointer. -/
def Yields (labels : String → Word) (is : List Instruction) (registers : Reg → Word) (target : Reg)
    (value : Word) (changed : List Reg) (depth : Nat) : Prop :=
  ∀ m : State, (∀ r, r ≠ .rsp → m.registers r = registers r) →
    ∃ m', run labels (is.map .instruction) m = some m' ∧ m'.registers target = value ∧
      Keeps depth (target :: changed) m m'

section

variable {labels : String → Word} {registers : Reg → Word} {target r : Reg} {value : Word}
  {changed : List Reg} {depth : Nat} {is : List Instruction}
variable {m m' : State}

theorem run_cons (labels : String → Word) (i : Instruction) (is : List Instruction) (m : State) :
    run labels ((i :: is).map .instruction) m =
    (step labels i m).bind (run labels (is.map .instruction)) := rfl

theorem run_nil (labels : String → Word) (m : State) :
    run labels (([] : List Instruction).map .instruction) m = some m := rfl

theorem run_append (labels : String → Word) (is more : List Instruction) (m : State) :
    run labels ((is ++ more).map .instruction) m =
      (run labels (is.map .instruction) m).bind (run labels (more.map .instruction)) := by
  rw [List.map_append]
  exact List.foldlM_append

theorem Keeps.mono {changed' : List Reg} {depth' : Nat} (h : Keeps depth changed m m')
    (hchanged : changed ⊆ changed') (hdepth : depth ≤ depth') (hword : depth' ≤ 2 ^ 64) :
    Keeps depth' changed' m m' where
  registers_eq r hr := h.registers_eq r fun hmem => hr (hchanged hmem)
  memory_eq address haddress := by
    refine h.memory_eq address fun hcontains => haddress ?_
    rw [Span.below_eq_offset _ hdepth] at hcontains
    rw [Span.below_eq_offset _ (Nat.le_refl depth')]
    exact Span.inside_offset (by omega) (by omega) (by omega) address hcontains

theorem Keeps.of_memory_eq (hregisters : ∀ r, r ∉ changed → m'.registers r = m.registers r)
    (hmemory : m'.memory = m.memory) : Keeps depth changed m m' :=
  ⟨hregisters, fun _ _ => congrFun hmemory _⟩

theorem Keeps.trans {m'' : State} (h : Keeps depth changed m m') (h' : Keeps depth changed m' m'')
    (hstack : .rsp ∉ changed) : Keeps depth changed m m'' where
  registers_eq r hr := (h'.registers_eq r hr).trans (h.registers_eq r hr)
  memory_eq address haddress := by
    rw [h'.memory_eq address (h.registers_eq _ hstack ▸ haddress), h.memory_eq address haddress]

@[simp] theorem registers_compute_self (m : State) (r : Reg) (value : Word) :
    (compute m r value).registers r = value :=
  Processor.registers_set_self ..

theorem registers_compute_of_ne {s : Reg} (h : s ≠ r) (m : State) (value : Word) :
    (compute m r value).registers s = m.registers s :=
  Processor.registers_set_of_ne h ..

theorem ofNat_eight : (8 : Word) = Int64.ofNat 8 := rfl

/-- A word is on top of the stack behind a push, in front of what was there. -/
theorem exists_step_push (labels : String → Word) (r : Reg) (m : State) :
    ∃ m', step labels (.push r) m = some m' ∧ m'.registers .rsp = m.registers .rsp - 8 ∧
      (∀ s, s ≠ .rsp → m'.registers s = m.registers s) ∧
      readSpan m'.memory ⟨m.registers .rsp - 8, 8⟩ = m.registers r ∧
      ∀ address, ¬ Span.Contains ⟨m.registers .rsp - 8, 8⟩ address →
        m'.memory address = m.memory address :=
  ⟨_, rfl, Processor.registers_set_self .., fun _ hs => Processor.registers_set_of_ne hs ..,
    Native.readSpan_writeSpan_word .., fun _ => Native.writeSpan_of_not_contains⟩

/-- A pop takes the word on top of the stack. -/
theorem exists_step_pop (labels : String → Word) (hr : r ≠ .rsp) (m : State) :
    ∃ m', step labels (.pop r) m = some m' ∧ m'.registers .rsp = m.registers .rsp + 8 ∧
      m'.registers r = readSpan m.memory ⟨m.registers .rsp, 8⟩ ∧
      (∀ s, s ≠ .rsp → s ≠ r → m'.registers s = m.registers s) ∧ m'.memory = m.memory := by
  refine ⟨_, rfl, ?_, Processor.registers_set_self .., fun s hs hne => ?_, rfl⟩
  · rw [Processor.registers_set_of_ne hr.symm, Processor.registers_set_self]
  · rw [Processor.registers_set_of_ne hne, Processor.registers_set_of_ne hs,
      Processor.registers_touch]

/-- What is on the stack stays there while only bytes below it change. -/
theorem Keeps.readSpan_top (h : Keeps depth changed m m') (hdepth : depth + 8 ≤ 2 ^ 64) :
    readSpan m'.memory ⟨m.registers .rsp, 8⟩ = readSpan m.memory ⟨m.registers .rsp, 8⟩ := by
  refine Native.readSpan_congr (by simp) fun address htop => h.memory_eq address fun hbelow => ?_
  have htop' : Span.Contains (.offset (m.registers .rsp - Int64.ofNat depth) depth 8) address := by
    have heq := Span.below_eq_offset (m.registers .rsp) (Nat.zero_le depth) 8
    rw [Nat.sub_zero] at heq
    rw [← heq]
    simpa using htop
  rw [Span.below_eq_offset _ (Nat.le_refl depth)] at hbelow
  exact Span.apart_offset (by omega) hdepth (.inl (by omega)) address hbelow htop'

/-- Puts a register aside on the stack, unless it is the target. -/
def setAside (target r : Reg) (is : List Instruction) : List Instruction :=
  if target = r then is else .push r :: is ++ [.pop r]

theorem Yields.mono {changed' : List Reg} {depth' : Nat}
    (h : Yields labels is registers target value changed depth) (hchanged : changed ⊆ changed')
    (hdepth : depth ≤ depth') (hword : depth' ≤ 2 ^ 64) :
    Yields labels is registers target value changed' depth' := by
  intro m hm
  obtain ⟨m', hrun, hvalue, hkeeps⟩ := h m hm
  exact ⟨m', hrun, hvalue, hkeeps.mono (List.cons_subset_cons _ hchanged) hdepth hword⟩

/-- A register that is put aside is kept. -/
theorem Yields.setAside (h : Yields labels is registers target value (r :: changed) depth)
    (ht : target ≠ .rsp) (hr : r ≠ .rsp) (hchanged : .rsp ∉ changed) (hdepth : depth + 8 ≤ 2 ^ 64) :
    Yields labels (setAside target r is) registers target value changed (depth + 8) := by
  intro m hm
  unfold X86.setAside
  split
  · next heq =>
    obtain ⟨m', hrun, hvalue, hkeeps⟩ := h m hm
    exact ⟨m', hrun, hvalue, hkeeps.mono (by simp [heq]) (by omega) hdepth⟩
  · next hne =>
    obtain ⟨m₁, hpush, hrsp₁, hregisters₁, htop, hmemory₁⟩ := exists_step_push labels r m
    obtain ⟨m₂, hrun, hvalue, hkeeps⟩ := h m₁ fun s hs => (hregisters₁ s hs).trans (hm s hs)
    obtain ⟨m', hpop, hrsp', hr', hregisters', hmemory'⟩ := exists_step_pop labels hr m₂
    have hrsp₂ : m₂.registers .rsp = m₁.registers .rsp :=
      hkeeps.registers_eq _ (by simp [ht.symm, hr.symm, hchanged])
    -- The word on top of the stack is still there behind the instructions.
    have hrestored : m'.registers r = m.registers r := by
      rw [hr', hrsp₂, hkeeps.readSpan_top hdepth, hrsp₁, htop]
    refine ⟨m', ?_, ?_, fun s hs => ?_, fun address haddress => ?_⟩
    · rw [List.cons_append, run_cons, hpush, Option.bind_some, run_append, hrun, Option.bind_some,
        run_cons, hpop]
      rfl
    · rw [hregisters' target ht hne, hvalue]
    · by_cases hstack : s = .rsp
      · rw [hstack, hrsp', hrsp₂, hrsp₁, Int64.sub_add_cancel]
      · by_cases hsaved : s = r
        · rw [hsaved, hrestored]
        · rw [hregisters' s hstack hsaved, hkeeps.registers_eq s (by simpa [hsaved] using hs),
            hregisters₁ s hstack]
    · -- Both the word that was pushed and what the instructions change lie in the bytes below the
      -- stack pointer.
      have hpushed := Span.below_eq_offset (m.registers .rsp) (show 8 ≤ depth + 8 by omega) 8
      have hinner : Span.mk (m₁.registers .rsp - Int64.ofNat depth) depth =
          .offset (m.registers .rsp - Int64.ofNat (depth + 8)) 0 depth := by
        rw [hrsp₁, Native.sub_sub_ofNat]
        exact (Span.offset_zero ..).symm
      rw [← Span.offset_zero] at haddress
      rw [hmemory', hkeeps.memory_eq address fun hcontains => haddress ?_,
        hmemory₁ address fun hcontains => haddress ?_]
      · have hcontains : Span.Contains ⟨m.registers .rsp - Int64.ofNat 8, 8⟩ address := hcontains
        rw [hpushed] at hcontains
        exact Span.inside_offset (by omega) (by omega) (by omega) address hcontains
      · rw [hinner] at hcontains
        exact Span.inside_offset (by omega) (by omega) (by omega) address hcontains

end

/-! ### Shifts -/

section

variable {labels : String → Word} {target amount : Reg}

theorem shiftBy_eq_setAside (op : ShiftOp) (ht : target ≠ .rcx) (ha : amount ≠ .rcx) :
    shiftBy op target amount = setAside target .rcx [.mov .rcx amount, .shift op target] := by
  simp [shiftBy, setAside, ht, ha]

/-- A register is shifted by the amount in another one, whichever of them is `rcx`. -/
theorem yields_shiftBy (labels : String → Word) (op : ShiftOp) (ht : target ≠ .rsp)
    (ha : amount ≠ .rsp) (hne : target ≠ amount) (registers : Reg → Word) :
    Yields labels (shiftBy op target amount) registers target
      (op.eval (registers target) (registers amount)) [amount] 8 := by
  by_cases htarget : target = .rcx
  · -- The operands change places, and the result ends up in both registers.
    subst htarget
    intro m hm
    refine ⟨_, rfl, ?_, .of_memory_eq (fun s hs => ?_) rfl⟩
    · rw [Processor.registers_set_self, registers_compute_self, Processor.registers_set_self,
        Processor.registers_set_of_ne hne, Processor.registers_set_self, hm _ ht, hm _ ha]
    · obtain ⟨hs, hs'⟩ : s ≠ .rcx ∧ s ≠ amount := by simpa using hs
      rw [Processor.registers_set_of_ne hs, registers_compute_of_ne hs',
        Processor.registers_set_of_ne hs', Processor.registers_set_of_ne hs]
  · by_cases hamount : amount = .rcx
    · subst hamount
      have hcode : shiftBy op target .rcx = [.shift op target] := by simp [shiftBy, htarget]
      rw [hcode]
      intro m hm
      refine ⟨_, rfl, ?_, .of_memory_eq (fun s hs => ?_) rfl⟩
      · rw [registers_compute_self, hm _ ht, hm _ ha]
      · exact registers_compute_of_ne (List.ne_of_not_mem_cons hs) ..
    · rw [shiftBy_eq_setAside op htarget hamount]
      refine Yields.setAside (fun m hm => ?_) ht (by decide) (by simpa using ha.symm) (by simp)
      refine ⟨_, rfl, ?_, .of_memory_eq (fun s hs => ?_) rfl⟩
      · rw [registers_compute_self, Processor.registers_set_self,
          Processor.registers_set_of_ne htarget, hm _ ht, hm _ ha]
      · obtain ⟨hs, hs', -⟩ : s ≠ target ∧ s ≠ .rcx ∧ s ≠ amount := by simpa using hs
        rw [registers_compute_of_ne hs, Processor.registers_set_of_ne hs']

end

/-! ### Divisions -/

section

variable {labels : String → Word} {target divisor : Reg}

/-- Copies a register into another one, unless it is the same. -/
def copyTo (target source : Reg) : List Instruction :=
  if source = target then [] else [.mov target source]

/-- Divides a register by another one and leaves the quotient in `rax` and the remainder in
`rdx`. -/
def quotientCode (target divisor : Reg) : List Instruction :=
  .push divisor :: copyTo .rax target ++ [.extendSign, .divide, .addConst .rsp 8]

/-- A division puts `rax` and `rdx` aside, unless one of them is the target. -/
theorem divideBy_eq_setAside (target divisor : Reg) (remainder : Bool) :
    divideBy target divisor remainder = setAside target .rax (setAside target .rdx
      (quotientCode target divisor ++ copyTo target (if remainder then .rdx else .rax))) := by
  unfold divideBy setAside quotientCode copyTo
  by_cases hrax : target = .rax
  · cases remainder <;> simp [hrax]
  · by_cases hrdx : target = .rdx
    · cases remainder <;> simp [hrdx]
    · cases remainder <;> simp [hrax, hrdx, eq_comm]

theorem exists_run_copyTo (labels : String → Word) (target source : Reg) (m : State) :
    ∃ m', run labels ((copyTo target source).map .instruction) m = some m' ∧
      m'.registers target = m.registers source ∧
      (∀ s, s ≠ target → m'.registers s = m.registers s) ∧ m'.memory = m.memory := by
  by_cases heq : source = target
  · rw [copyTo, if_pos heq, heq]
    exact ⟨m, rfl, rfl, fun _ _ => rfl, rfl⟩
  · rw [copyTo, if_neg heq]
    exact ⟨_, rfl, Processor.registers_set_self ..,
      fun _ hs => Processor.registers_set_of_ne hs .., rfl⟩

theorem exists_step_divide (labels : String → Word) {quotient remainder : Word}
    (h : quotient? (m.registers .rdx) (m.registers .rax) (readSpan m.memory ⟨m.registers .rsp, 8⟩) =
      some (quotient, remainder)) :
    ∃ m', step labels .divide m = some m' ∧ m'.registers .rax = quotient ∧
      m'.registers .rdx = remainder ∧
      (∀ s, s ≠ .rax → s ≠ .rdx → m'.registers s = m.registers s) ∧ m'.memory = m.memory := by
  have hstep : step labels .divide m =
      some (compute (compute (m.touch ⟨m.registers .rsp, 8⟩) .rax quotient) .rdx remainder) := by
    simp only [step, h, Option.map_some]
  refine ⟨_, hstep, ?_, registers_compute_self .., fun s hs hs' => ?_, rfl⟩
  · rw [registers_compute_of_ne (by decide), registers_compute_self]
  · rw [registers_compute_of_ne hs', registers_compute_of_ne hs, Processor.registers_touch]

/-- Behind the division nothing has changed but `rax`, `rdx` and the word below the stack
pointer. -/
theorem exists_run_quotientCode (labels : String → Word) (ht : target ≠ .rsp)
    (hzero : m.registers divisor ≠ 0)
    (hword : ¬ (m.registers target = Int64.minValue ∧ m.registers divisor = -1)) :
    ∃ m', run labels ((quotientCode target divisor).map .instruction) m = some m' ∧
      m'.registers .rax = m.registers target / m.registers divisor ∧
      m'.registers .rdx = m.registers target % m.registers divisor ∧ Keeps 8 [.rax, .rdx] m m' := by
  obtain ⟨m₁, hpush, hrsp₁, hregisters₁, htop, hmemory₁⟩ := exists_step_push labels divisor m
  obtain ⟨m₂, hcopy, hrax₂, hregisters₂, hmemory₂⟩ := exists_run_copyTo labels .rax target m₁
  have hrsp₂ : m₂.registers .rsp = m.registers .rsp - 8 := (hregisters₂ _ (by decide)).trans hrsp₁
  have hdividend : m₂.registers .rax = m.registers target := hrax₂.trans (hregisters₁ target ht)
  -- Behind the extension of the sign `rdx:rax` is the dividend, and the divisor is on top of the
  -- stack.
  obtain ⟨m₃, hextend, hm₃⟩ : ∃ m₃, step labels .extendSign m₂ = some m₃ ∧
      m₃ = m₂.set .rdx (if m₂.registers .rax < 0 then -1 else 0) := ⟨_, rfl, rfl⟩
  have hmemory₃ : m₃.memory = m₂.memory := by
    rw [hm₃]
    rfl
  have hregisters₃ (s : Reg) (hs : s ≠ .rdx) : m₃.registers s = m₂.registers s := by
    rw [hm₃, Processor.registers_set_of_ne hs]
  have hquotient : quotient? (m₃.registers .rdx) (m₃.registers .rax)
      (readSpan m₃.memory ⟨m₃.registers .rsp, 8⟩) =
      some (m.registers target / m.registers divisor,
        m.registers target % m.registers divisor) := by
    have hrdx₃ : m₃.registers .rdx = if m.registers target < 0 then -1 else 0 := by
      rw [hm₃, Processor.registers_set_self, hdividend]
    rw [hrdx₃, hregisters₃ _ (by decide), hregisters₃ _ (by decide), hdividend, hrsp₂, hmemory₃,
      hmemory₂, htop]
    exact quotient?_extendSign hzero hword
  obtain ⟨m₄, hdivide, hrax₄, hrdx₄, hregisters₄, hmemory₄⟩ := exists_step_divide labels hquotient
  have hdrop : step labels (.addConst .rsp 8) m₄ =
      some (compute m₄ .rsp (m₄.registers .rsp + Int64.ofNat 8)) := rfl
  have hrun : run labels ((quotientCode target divisor).map .instruction) m =
      some (compute m₄ .rsp (m₄.registers .rsp + Int64.ofNat 8)) := by
    rw [quotientCode, List.cons_append, run_cons, hpush, Option.bind_some, run_append, hcopy,
      Option.bind_some, run_cons, hextend, Option.bind_some, run_cons, hdivide, Option.bind_some,
      run_cons, hdrop, Option.bind_some, run_nil]
  refine ⟨_, hrun, ?_, ?_, fun s hs => ?_, fun address haddress => ?_⟩
  · rw [registers_compute_of_ne (by decide), hrax₄]
  · rw [registers_compute_of_ne (by decide), hrdx₄]
  · obtain ⟨hrax, hrdx⟩ : s ≠ .rax ∧ s ≠ .rdx := by simpa using hs
    by_cases hstack : s = .rsp
    · rw [hstack, registers_compute_self, hregisters₄ _ (by decide) (by decide),
        hregisters₃ _ (by decide), hrsp₂, ← ofNat_eight, Int64.sub_add_cancel]
    · rw [registers_compute_of_ne hstack, hregisters₄ s hrax hrdx, hregisters₃ s hrdx,
        hregisters₂ s hrax, hregisters₁ s hstack]
  · have hmemory : (compute m₄ .rsp (m₄.registers .rsp + Int64.ofNat 8)).memory = m₄.memory := rfl
    rw [hmemory, hmemory₄, hmemory₃, hmemory₂, hmemory₁ address (ofNat_eight ▸ haddress)]

/-- A register is divided by another one, whichever of them is `rax` or `rdx`. -/
theorem yields_divideBy (labels : String → Word) (remainder : Bool) (ht : target ≠ .rsp)
    (hd : divisor ≠ .rsp) {registers : Reg → Word} (hzero : registers divisor ≠ 0)
    (hword : ¬ (registers target = Int64.minValue ∧ registers divisor = -1)) :
    Yields labels (divideBy target divisor remainder) registers target
      (if remainder then registers target % registers divisor
        else registers target / registers divisor) [] 24 := by
  rw [divideBy_eq_setAside]
  refine Yields.setAside (Yields.setAside (fun m hm => ?_) ht (by decide) (by decide) (by simp)) ht
    (by decide) (by decide) (by simp)
  rw [← hm _ ht, ← hm _ hd] at hword ⊢
  rw [← hm _ hd] at hzero
  obtain ⟨m₁, hrun, hrax, hrdx, hkeeps⟩ := exists_run_quotientCode labels ht hzero hword
  obtain ⟨m', hcopy, htarget, hregisters, hmemory⟩ :=
    exists_run_copyTo labels target (if remainder then .rdx else .rax) m₁
  refine ⟨m', ?_, ?_, fun s hs => ?_, fun address haddress => ?_⟩
  · rw [run_append, hrun, Option.bind_some, hcopy]
  · rw [htarget]
    cases remainder
    · exact hrax
    · exact hrdx
  · obtain ⟨hs, hs'⟩ : s ≠ target ∧ s ∉ [Reg.rax, Reg.rdx] := by
      simp at hs ⊢
      tauto
    rw [hregisters s hs, hkeeps.registers_eq s hs']
  · rw [hmemory, hkeeps.memory_eq address haddress]

end

/-! ### Operators, comparisons and bits -/

section

variable {labels : String → Word} {registers : Reg → Word} {target operand scratch : Reg}
  {value : Word}

theorem yields_alu (labels : String → Word) (op : AluOp) (ht : target ≠ .rsp) (ho : operand ≠ .rsp)
    (registers : Reg → Word) :
    Yields labels [.alu op target operand] registers target
      (op.eval (registers target) (registers operand)) [] 0 := by
  intro m hm
  refine ⟨_, rfl, ?_, .of_memory_eq (fun s hs => ?_) rfl⟩
  · rw [registers_compute_self, hm _ ht, hm _ ho]
  · exact registers_compute_of_ne (List.ne_of_not_mem_cons hs) ..

/-- An operator is applied to two registers, unless the division of the words has no result. -/
theorem yields_binary (labels : String → Word) {op : BinaryOp} (ht : target ≠ .rsp)
    (ho : operand ≠ .rsp) (hne : target ≠ operand)
    (hvalue : op.eval (registers target) (registers operand) = some value)
    (hword : ¬ ((op = .div ∨ op = .mod) ∧ registers target = Int64.minValue ∧
      registers operand = -1)) :
    Yields labels (binary op target operand) registers target value [operand] 24 := by
  cases op with
  | add | sub | mul | and | or | xor =>
    cases hvalue
    exact (yields_alu labels _ ht ho registers).mono (by simp) (by simp) (by simp)
  | shiftLeft | shiftRight =>
    cases hvalue
    exact (yields_shiftBy labels _ ht ho hne registers).mono (by simp) (by simp) (by simp)
  | div | mod =>
    rw [BinaryOp.eval, Option.ite_none_left_eq_some, Option.some_inj] at hvalue
    obtain ⟨hzero, rfl⟩ := hvalue
    exact (yields_divideBy labels _ ht ho hzero (by simpa using hword)).mono (by simp) (by simp)
      (by simp)

/-- A comparison of two registers leaves its truth value in the first. -/
theorem yields_compare (labels : String → Word) (op : CompareOp) (ht : target ≠ .rsp)
    (ho : operand ≠ .rsp) (hne : scratch ≠ target) (registers : Reg → Word) :
    Yields labels (compare op target operand scratch) registers target
      (Word.ofBool (op.eval (registers target) (registers operand))) [scratch] 0 := by
  intro m hm
  rw [← hm _ ht, ← hm _ ho]
  -- In front of the conditional move the target holds zero and the scratch register one.
  obtain ⟨m₁, hm₁⟩ : ∃ m₁ : State, m₁ = (Processor.set
      { m with flags := some (m.registers target, m.registers operand) } scratch 1).set target 0 :=
    ⟨_, rfl⟩
  have hother (s : Reg) (hs : s ∉ [target, scratch]) : m₁.registers s = m.registers s := by
    obtain ⟨hs, hs'⟩ : s ≠ target ∧ s ≠ scratch := by simpa using hs
    rw [hm₁, Processor.registers_set_of_ne hs, Processor.registers_set_of_ne hs']
  have hrun : run labels ((compare op target operand scratch).map .instruction) m =
      some (if op.eval (m.registers target) (m.registers operand)
        then m₁.set target (m₁.registers scratch) else m₁) := by
    rw [hm₁]
    rfl
  have hmemory : m₁.memory = m.memory := by
    rw [hm₁]
    rfl
  refine ⟨_, hrun, ?_⟩
  split
  · next hcond =>
    refine ⟨?_, .of_memory_eq (fun s hs => ?_) hmemory⟩
    · rw [hcond, Processor.registers_set_self, hm₁, Processor.registers_set_of_ne hne,
        Processor.registers_set_self]
      rfl
    · rw [Processor.registers_set_of_ne (List.ne_of_not_mem_cons hs), hother s hs]
  · next hcond =>
    refine ⟨?_, .of_memory_eq hother hmemory⟩
    rw [Bool.eq_false_of_not_eq_true hcond, hm₁, Processor.registers_set_self]
    rfl

/-- The lowest byte is replaced by a truth value, and the others are dropped. -/
theorem setLow_and_255 (w : Word) (b : Bool) :
    (w &&& ~~~255 ||| Word.ofBool b) &&& 255 = Word.ofBool b := by
  have hlow : Word.ofBool b &&& 255 = Word.ofBool b := by cases b <;> rfl
  have hhigh : w &&& ~~~255 &&& 255 = 0 := by
    rw [Int64.and_assoc]
    exact Int64.and_zero
  have hdistrib (x y z : Word) : (x ||| y) &&& z = x &&& z ||| y &&& z :=
    Int64.toBitVec_inj.1 BitVec.and_or_distrib_right
  rw [hdistrib, hhigh, hlow, Int64.zero_or]

/-- A register is replaced by the truth value of its being zero. -/
theorem yields_not (labels : String → Word) (ht : target ≠ .rsp) (registers : Reg → Word) :
    Yields labels (not target) registers target (Word.ofBool (registers target == 0)) [] 0 := by
  intro m hm
  rw [← hm _ ht]
  refine ⟨_, rfl, ?_, .of_memory_eq (fun s hs => ?_) rfl⟩
  · rw [Processor.registers_set_self, Processor.registers_set_self, setLow_and_255]
  · have hs := List.ne_of_not_mem_cons hs
    rw [Processor.registers_set_of_ne hs, Processor.registers_set_of_ne hs]

/-- A register is replaced by one of its bits. -/
theorem yields_bitTest (labels : String → Word) {index : Reg} (ht : target ≠ .rsp)
    (hi : index ≠ .rsp) (hs : scratch ≠ .rsp) (hindex : target ≠ index)
    (hscratch : target ≠ scratch) (hne : index ≠ scratch) (registers : Reg → Word) :
    Yields labels (bitTest target index scratch) registers target
      (Word.bitTest (registers target) (registers index)) [index, scratch] 8 := by
  intro m hm
  -- One is put into the scratch register and shifted there.
  obtain ⟨m₁, hone, hm₁⟩ : ∃ m₁, step labels (.movConst scratch 1) m = some m₁ ∧
      m₁ = m.set scratch 1 :=
    ⟨_, rfl, rfl⟩
  obtain ⟨m₂, hshift, hscratch₂, hkeeps₂⟩ :=
    yields_shiftBy labels .shl hs hi hne.symm m₁.registers m₁ fun _ _ => rfl
  obtain ⟨m', hand, htarget, hkeeps'⟩ := yields_alu labels .and ht hs m₂.registers m₂ fun _ _ => rfl
  have hregisters₁ (s : Reg) (hs : s ≠ scratch) : m₁.registers s = m.registers s := by
    rw [hm₁, Processor.registers_set_of_ne hs]
  have hkeeps₁ : Keeps 8 [target, index, scratch] m m₁ := by
    refine .of_memory_eq (fun s hs => hregisters₁ s ?_) (by rw [hm₁]; rfl)
    simp_all
  have hbit : m₂.registers scratch = 1 <<< registers index := by
    rw [hscratch₂, hregisters₁ index hne, hm _ hi, hm₁, Processor.registers_set_self]
    rfl
  have htarget₂ : m₂.registers target = registers target := by
    rw [hkeeps₂.registers_eq target (by simp [hscratch, hindex]), hregisters₁ target hscratch,
      hm _ ht]
  have hkeeps₂ : Keeps 8 [target, index, scratch] m₁ m₂ :=
    hkeeps₂.mono (by simp) (by simp) (by simp)
  have hkeeps' : Keeps 8 [target, index, scratch] m₂ m' :=
    hkeeps'.mono (by simp) (by simp) (by simp)
  have hstack : .rsp ∉ [target, index, scratch] := by simp [ht.symm, hi.symm, hs.symm]
  refine ⟨m', ?_, ?_, (hkeeps₁.trans hkeeps₂ hstack).trans hkeeps' hstack⟩
  · rw [bitTest, List.append_assoc, List.singleton_append, run_cons, hone, Option.bind_some,
      run_append, hshift, Option.bind_some, hand]
  · rw [htarget, htarget₂, hbit]
    rfl

end

/-! ### The registers of the generator -/

/-- Lines put a word into a register. The stack pointer is where it was, and nothing has changed but
the named registers and at most twenty-four bytes below the stack pointer. -/
def Computes (labels : String → Word) (m : State) (lines : List Line) (target : Reg) (value : Word)
    (changed : List Reg) : Prop :=
  ∃ m', run labels lines m = some m' ∧ m'.registers target = value ∧
    m'.registers .rsp = m.registers .rsp ∧ Keeps 24 (target :: changed) m m'

theorem file_ne_rsp (r : Fin 14) : file r ≠ .rsp := by
  decide +revert

theorem file_ne_file {r s : Fin 14} (h : r ≠ s) : file r ≠ file s := by
  decide +revert

theorem Yields.computes {labels : String → Word} {is : List Instruction} {target : Fin 14}
    {value : Word} {depth : Nat} (changed : List (Fin 14))
    (h : Yields labels is m.registers (file target) value (changed.map file) depth)
    (hdepth : depth ≤ 24) :
    Computes labels m (is.map .instruction) (file target) value (changed.map file) := by
  obtain ⟨m', hrun, hvalue, hkeeps⟩ := h m fun _ _ => rfl
  refine ⟨m', hrun, hvalue, hkeeps.registers_eq _ fun hmem => ?_,
    hkeeps.mono (List.Subset.refl _) hdepth (by simp)⟩
  obtain ⟨r, -, hr⟩ := List.mem_map.1
    (List.map_cons ▸ hmem : Reg.rsp ∈ (target :: changed).map file)
  exact file_ne_rsp r hr

/-- Every primitive of several instructions computes its operation and changes nothing else,
whichever registers hold its operands. The conditions and the amounts of shifts are those of the
processor. -/
theorem computes_primitives (labels : String → Word) :
    (∀ a b op, (Status.ofCompare a b).holds op = op.eval a b) ∧
    (∀ a, (Status.ofTest a).zero = (a == 0)) ∧
    (∀ a amount, (ShiftOp.shl.eval a amount).toBitVec = a.toBitVec <<<
      (amount.toBitVec.toNat % 64) ∧ (ShiftOp.sar.eval a amount).toBitVec =
      a.toBitVec.sshiftRight (amount.toBitVec.toNat % 64)) ∧
    ∀ (m : State) (target : Fin 14),
      Computes labels m (lower (.not target)) (file target)
        (Word.ofBool (m.registers (file target) == 0)) [] ∧
      ∀ operand : Fin 14, operand ≠ target →
        (∀ (op : BinaryOp) (value : Word),
          op.eval (m.registers (file target)) (m.registers (file operand)) = some value →
          ¬ ((op = .div ∨ op = .mod) ∧ m.registers (file target) = Int64.minValue ∧
            m.registers (file operand) = -1) →
          Computes labels m (lower (.binary op target operand)) (file target) value
            [file operand]) ∧
        ∀ scratch : Fin 14, scratch ≠ target → scratch ≠ operand →
          Computes labels m (lower (.bitTest target operand scratch)) (file target)
            (Word.bitTest (m.registers (file target)) (m.registers (file operand)))
            [file operand, file scratch] ∧
          ∀ (op : CompareOp) (label : String),
            Computes labels m (lower (.compare op target operand scratch label)) (file target)
              (Word.ofBool (op.eval (m.registers (file target)) (m.registers (file operand))))
              [file scratch] := by
  refine ⟨holds_ofCompare, zero_ofTest,
    fun a amount => ⟨toBitVec_shl a amount, toBitVec_sar a amount⟩, fun m target => ?_⟩
  have ht := file_ne_rsp target
  refine ⟨(yields_not labels ht m.registers).computes [] (by simp), fun operand hoperand => ?_⟩
  have ho := file_ne_rsp operand
  have hto := file_ne_file hoperand.symm
  refine ⟨fun op value hvalue hword => ?_, fun scratch hscratch hscratch' =>
    ⟨?_, fun op label => ?_⟩⟩
  · exact (yields_binary labels ht ho hto hvalue hword).computes [operand] (by simp)
  · exact (yields_bitTest labels ht ho (file_ne_rsp scratch) hto (file_ne_file hscratch.symm)
      (file_ne_file hscratch'.symm) m.registers).computes [operand, scratch] (by simp)
  · exact (yields_compare labels op ht ho (file_ne_file hscratch) m.registers).computes [scratch]
      (by simp)

/-- A state whose first register holds a negative number and whose other registers hold two. -/
def negativeState : State where
  registers r := if r = .rax then -7 else 2
  flags := none
  memory _ := 0
  accesses := []

/-- The remainder of a negative number, with the divisor in a register that the division uses. -/
theorem computes_primitives_negativeState :
    Computes (fun _ => 0) negativeState (lower (.binary .mod 0 3)) .rax (-1) [.rdx] :=
  ((computes_primitives fun _ => 0).2.2.2 negativeState 0).2 3 (by decide) |>.1 .mod (-1)
    (by decide) (by decide)

end Firestorm.X86
