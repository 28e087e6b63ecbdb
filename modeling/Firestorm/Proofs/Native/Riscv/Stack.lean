import Firestorm.Proofs.Native.Bodies
import Firestorm.Proofs.Native.Riscv.Lines

/-!
# The stack on RISC-V

A path through the lines of a function is followed line by line: a branch may go either way, and a
call comes back with the stack pointer and the frame pointer as they were. A path that starts at the
label of a function first builds the frame, then stays in the body, and at last takes the frame
down. In the body the frame pointer is where the prologue has put it and the stack pointer is a
multiple of sixteen, so that every call finds an aligned stack and the epilogue finds the frame.

## Main definitions

* `Riscv.Moves`, `Riscv.Phase`, `Riscv.CallsAligned`, `Riscv.ReturnsToCaller`.

## Main results

* `Riscv.exists_run_leaveCode`, `Riscv.Phase.moves`, `Riscv.phase_of_path`,
  `Riscv.callsAligned_framed`, `Riscv.returnsToCaller_framed`.
* `Riscv.stack_sound`: the stack and the constants of the native code of programs.
-/

namespace Firestorm.Riscv

open Native (BodyOf FunctionCode Names Place Primitive Processor Span exitLabel exports framed
  innerLabel readSpan)

variable {x : List Line × State} {lines : List Line}

/-! ### Paths -/

/-- The label that an instruction can send control to. -/
def Instruction.target? : Instruction → Option String
  | .branch _ _ _ label | .branchIfZero _ label | .branchIfNotZero _ label | .jump label =>
    some label
  | _ => none

/-- Whether control can also go on behind an instruction with a target. -/
def Instruction.isConditional : Instruction → Bool
  | .branch .. | .branchIfZero .. | .branchIfNotZero .. => true
  | _ => false

/-- A step of a path through lines, where a position is what remains of the lines. A branch may go
either way, and behind a call the stack pointer and the frame pointer are as they were. -/
inductive Moves (labels : String → Word) (lines : List Line) :
    List Line × State → List Line × State → Prop
  | line {line : Line} {rest : List Line} {m m' : State} (h : line.step labels m = some m') :
    Moves labels lines (line :: rest, m) (rest, m')
  | jump {i : Instruction} {target : String} {rest behind : List Line} {m : State}
    (h : i.target? = some target) (hlabel : .label target :: behind <:+ lines) :
    Moves labels lines (.instruction i :: rest, m) (.label target :: behind, m)
  | pass {i : Instruction} {rest : List Line} {m : State} (h : i.isConditional = true) :
    Moves labels lines (.instruction i :: rest, m) (rest, m)
  | call {function : String} {rest : List Line} {m m' : State} (hsp : get m' .sp = get m .sp)
    (hfp : get m' framePointer = get m framePointer) :
    Moves labels lines (.instruction (.call function) :: rest, m) (rest, m')

section

variable {labels : String → Word} {lines rest : List Line} {line : Line} {m m' m₁ : State}
  {i : Instruction}

theorem step_eq_none_of_target? {target : String} (h : i.target? = some target) :
    step labels i m = none := by
  cases i <;> first | rfl | cases h

theorem step_eq_none_of_isConditional (h : i.isConditional = true) : step labels i m = none := by
  cases i <;> first | rfl | cases h

/-- Control goes on behind a line that does not direct it. -/
theorem Moves.eq_of_step (h : Moves labels lines (line :: rest, m) x)
    (hstep : line.step labels m = some m₁) : x = (rest, m₁) := by
  cases h with
  | line h => rw [Option.some.inj (h.symm.trans hstep)]
  | jump h => cases hstep.symm.trans (step_eq_none_of_target? h)
  | pass h => cases hstep.symm.trans (step_eq_none_of_isConditional h)
  | call => cases hstep

theorem run_cons (labels : String → Word) (line : Line) (rest : List Line) (m : State) :
    run labels (line :: rest) m = (line.step labels m).bind (run labels rest) := rfl

theorem run_nil (labels : String → Word) (m : State) : run labels [] m = some m := rfl

theorem run_instruction_cons (labels : String → Word) (i : Instruction) (rest : List Line)
    (m : State) :
    run labels (.instruction i :: rest) m = (step labels i m).bind (run labels rest) := rfl

end

/-! ### Taking down the frame -/

/-- The instructions that take down a frame. -/
def leaveCode (frame : Nat) : List Instruction :=
  [.move .sp framePointer, .load .double .ra 0 .sp, .load .double framePointer 8 .sp] ++
    adjustStack frame

/-- The last instruction of a function. -/
def leaveInstruction (noreturn : Bool) : Instruction :=
  if noreturn then .call Program.unreachable else .ret

theorem lower_epilogue (frame : Nat) (noreturn : Bool) : lower (.epilogue frame noreturn) =
    (leaveCode frame).map .instruction ++ [.instruction (leaveInstruction noreturn)] :=
  List.map_append

theorem exists_step_load (labels : String → Word) (target : Reg) (h : target.number.val ≠ 0)
    (width : Width) (offset : Nat) (base : Reg) (m : State) :
    ∃ m', step labels (.load width target offset base) m = some m' ∧
      get m' target = readSpan m.memory (.offset (get m base) offset width.size) ∧
      (∀ r : Reg, r.number ≠ target.number → get m' r = get m r) ∧ m'.memory = m.memory :=
  ⟨_, rfl, get_put_self h .., fun _ hr => get_put_of_ne hr .., memory_put ..⟩

/-- The epilogue gives up what lies below the end of the frame, and takes the return address and the
frame pointer of the caller from its first two words. -/
theorem exists_run_leaveCode (labels : String → Word) (frame : Nat) (m : State) :
    ∃ m', run labels ((leaveCode frame).map .instruction) m = some m' ∧
      get m' .sp = get m framePointer + Int64.ofNat frame ∧
      get m' .ra = readSpan m.memory (.offset (get m framePointer) 0 8) ∧
      get m' framePointer = readSpan m.memory (.offset (get m framePointer) 8 8) ∧
      m'.memory = m.memory := by
  obtain ⟨m₁, hmove, hsp₁, hmemory₁⟩ : ∃ m₁, step labels (.move .sp framePointer) m = some m₁ ∧
      get m₁ .sp = get m framePointer ∧ m₁.memory = m.memory :=
    ⟨_, rfl, get_put_self (by decide) .., memory_put ..⟩
  obtain ⟨m₂, hload₂, hra₂, hother₂, hmemory₂⟩ :=
    exists_step_load labels .ra (by decide) .double 0 .sp m₁
  obtain ⟨m₃, hload₃, hfp₃, hother₃, hmemory₃⟩ :=
    exists_step_load labels framePointer (by decide) .double 8 .sp m₂
  obtain ⟨m', hadjust, hsp', hra', hfp', hmemory', -⟩ := run_adjustStack labels frame m₃
  have hsp₂ : get m₂ .sp = get m framePointer := (hother₂ _ (by decide)).trans hsp₁
  refine ⟨m', ?_, ?_, ?_, ?_, ?_⟩
  · rw [leaveCode, List.map_append, run_append, List.map_cons, run_instruction_cons, hmove,
      Option.bind_some, List.map_cons, run_instruction_cons, hload₂, Option.bind_some,
      List.map_cons, run_instruction_cons, hload₃, Option.bind_some, List.map_nil, run_nil,
      Option.bind_some, hadjust]
  · rw [hsp', hother₃ _ (by decide), hsp₂]
    rfl
  · rw [hra', hother₃ _ (by decide), hra₂, hsp₁, hmemory₁]
    rfl
  · rw [hfp', hfp₃, hsp₂, hmemory₂, hmemory₁]
    rfl
  · rw [hmemory', hmemory₃, hmemory₂, hmemory₁]

/-! ### Phases of a function -/

section

variable (labels : String → Word) (m₀ : State) (frame : Nat)

/-- Inside the body of a function that has been entered in the state `m₀`. -/
structure Ready (m : State) : Prop where
  framePointer_eq : get m framePointer = get m₀ .sp - Int64.ofNat frame
  aligned : Aligned (get m₀ .sp) → Aligned (get m .sp)

/-- At the end of a function that has been entered in the state `m₀`. -/
structure Restored (m : State) : Prop where
  sp_eq : get m .sp = get m₀ .sp
  ra_eq : get m .ra = readSpan m.memory (.offset (get m₀ .sp - Int64.ofNat frame) 0 8)
  framePointer_eq : get m framePointer =
    readSpan m.memory (.offset (get m₀ .sp - Int64.ofNat frame) 8 8)

variable (body : List Line) (noreturn : Bool)

/-- Where a path through a function is. It builds the frame, stays in the body, takes down the
frame, or has ended. -/
inductive Phase : List Line × State → Prop
  | enter {rest : List Line} {m m₁ : State} (h : run labels rest m = some m₁)
    (hm : Ready m₀ frame m₁) : Phase (rest ++ (body ++ lower (.epilogue frame noreturn)), m)
  | inside {rest : List Line} {m : State} (hrest : rest <:+ body) (hm : Ready m₀ frame m) :
    Phase (rest ++ lower (.epilogue frame noreturn), m)
  | leave {rest : List Line} {m m₁ : State} (h : run labels rest m = some m₁)
    (hm : Restored m₀ frame m₁) : Phase (rest ++ [.instruction (leaveInstruction noreturn)], m)
  | ended {m : State} : Phase ([], m)

/-- What the next line of a path is. -/
inductive Stage : List Line → State → Prop
  | straight {line : Line} {rest : List Line} {m m₁ : State} (h : line.step labels m = some m₁)
    (hnext : Phase labels m₀ frame body noreturn (rest, m₁)) : Stage (line :: rest) m
  | inside {line : Line} {rest : List Line} {m : State} (hrest : line :: rest <:+ body)
    (hm : Ready m₀ frame m) : Stage (line :: (rest ++ lower (.epilogue frame noreturn))) m
  | last {m : State} (hm : Restored m₀ frame m) : Stage [.instruction (leaveInstruction noreturn)] m
  | ended {m : State} : Stage [] m

end

section

variable {labels : String → Word} {m₀ m m₁ : State} {frame : Nat} {body rest : List Line}
  {noreturn : Bool}

theorem Stage.of_leave (h : run labels rest m = some m₁) (hm : Restored m₀ frame m₁) :
    Stage labels m₀ frame body noreturn (rest ++ [.instruction (leaveInstruction noreturn)]) m := by
  cases rest with
  | nil =>
    cases h
    exact .last hm
  | cons line rest =>
    obtain ⟨m₂, hstep, hrun⟩ := Option.bind_eq_some_iff.1 (run_cons .. ▸ h)
    exact .straight hstep (.leave hrun hm)

/-- The epilogue finds the frame. -/
theorem Ready.exists_restored (hm : Ready m₀ frame m) (labels : String → Word) :
    ∃ m', run labels ((leaveCode frame).map .instruction) m = some m' ∧ Restored m₀ frame m' := by
  obtain ⟨m', hrun, hsp, hra, hfp, hmemory⟩ := exists_run_leaveCode labels frame m
  rw [hm.framePointer_eq] at hsp hra hfp
  refine ⟨m', hrun, ?_, ?_, ?_⟩
  · rw [hsp, Int64.sub_add_cancel]
  · rw [hra, hmemory]
  · rw [hfp, hmemory]

theorem Stage.of_inside (hrest : rest <:+ body) (hm : Ready m₀ frame m) :
    Stage labels m₀ frame body noreturn (rest ++ lower (.epilogue frame noreturn)) m := by
  cases rest with
  | nil =>
    obtain ⟨m', hrun, hrestored⟩ := hm.exists_restored labels
    rw [List.nil_append, lower_epilogue]
    exact .of_leave hrun hrestored
  | cons line rest => exact .inside hrest hm

/-- The next line of a path. -/
theorem Phase.stage (h : Phase labels m₀ frame body noreturn (rest, m)) :
    Stage labels m₀ frame body noreturn rest m := by
  cases h with
  | @enter rest _ m₁ h hm =>
    cases rest with
    | nil =>
      cases h
      exact .of_inside List.suffix_rfl hm
    | cons line rest =>
      obtain ⟨m₂, hstep, hrun⟩ := Option.bind_eq_some_iff.1 (run_cons .. ▸ h)
      exact .straight hstep (.enter hrun hm)
  | inside hrest hm => exact .of_inside hrest hm
  | leave h hm => exact .of_leave h hm
  | ended => exact .ended

theorem Ready.of_step (hm : Ready m₀ frame m) {line : Line} (hline : line.Steady)
    (h : line.step labels m = some m₁) : Ready m₀ frame m₁ := by
  cases line with
  | instruction i =>
    obtain ⟨haligned, hleaves, -⟩ := hline
    exact ⟨(hleaves.get_eq h).trans hm.framePointer_eq,
      fun h₀ => haligned.aligned h (hm.aligned h₀)⟩
  | label name =>
    cases h
    exact hm
  | _ => cases h

/-- Behind the last instruction of a function there is nothing left. -/
theorem Moves.eq_nil_of_leave
    (h : Moves labels lines ([.instruction (leaveInstruction noreturn)], m) x) : x.1 = [] := by
  cases noreturn with
  | true =>
    cases h with
    | line h | jump h | pass h => cases h
    | call => rfl
  | false =>
    cases h with
    | line h | jump h | pass h => cases h

/-- A step of a path through a function whose body is steady and whose jumps stay inside. -/
theorem Phase.moves {y : List Line × State} (hsteady : ∀ line ∈ body, line.Steady)
    (hjump : ∀ i target behind, .instruction i ∈ body → i.target? = some target →
      .label target :: behind <:+ lines →
      ∃ rest, rest <:+ body ∧ .label target :: behind = rest ++ lower (.epilogue frame noreturn))
    (h : Phase labels m₀ frame body noreturn x) (hmoves : Moves labels lines x y) :
    Phase labels m₀ frame body noreturn y := by
  obtain ⟨rest, m⟩ := x
  cases h.stage with
  | straight hstep hnext =>
    rw [hmoves.eq_of_step hstep]
    exact hnext
  | @inside line rest _ hrest hm =>
    have hmem : line ∈ body := hrest.subset (List.mem_cons_self ..)
    have hnext : rest <:+ body := (List.suffix_cons line rest).trans hrest
    cases hmoves with
    | line hstep => exact .inside hnext (hm.of_step (hsteady line hmem) hstep)
    | jump htarget hlabel =>
      obtain ⟨more, hmore, heq⟩ := hjump _ _ _ hmem htarget hlabel
      rw [heq]
      exact .inside hmore hm
    | pass => exact .inside hnext hm
    | call hsp hfp => exact .inside hnext ⟨hfp ▸ hm.framePointer_eq, hsp ▸ hm.aligned⟩
  | last =>
    obtain ⟨rest, m'⟩ := y
    obtain rfl : rest = [] := hmoves.eq_nil_of_leave
    exact .ended
  | ended => cases hmoves

end

/-! ### Labels of bodies -/

section

variable {q : Primitive 13} {i : Instruction} {name target function : String}
  {targets : List String}

theorem mem_defined_of_label_mem (h : .label name ∈ lower q) : name ∈ q.defined true := by
  rw [← defined_lower]
  exact List.mem_flatMap.2 ⟨_, h, List.mem_singleton_self name⟩

theorem label_notMem_lower (h : q.defined true = []) : .label name ∉ lower q := fun hmem => by
  rw [← List.mem_nil_iff name, ← h]
  exact mem_defined_of_label_mem hmem

theorem label_mem_lower (hq : q.isInner = true) (h : name ∈ q.defined true) :
    .label name ∈ lower q := by
  cases q with
  | label | compare =>
    rw [List.mem_singleton.1 h]
    simp [lower, compareLines]
  | datum | string | entry | trap => cases hq
  | _ => cases h

theorem mem_labels_of_target? (h : i.target? = some target) : target ∈ i.labels := by
  cases i <;> cases h <;> exact List.mem_singleton_self _

theorem instruction_notMem_map {is : List Instruction} (his : ∀ i ∈ is, i.target? = none)
    (h : i.target? = some target) : .instruction i ∉ is.map Line.instruction := by
  intro hi
  obtain ⟨i', hi', heq⟩ := List.mem_map.1 hi
  cases heq
  cases h.symm.trans (his i hi')

theorem target?_locate (place : Place) : ∀ i ∈ (locate place).1, i.target? = none := by
  cases place with
  | data label => exact List.forall_mem_singleton.2 rfl
  | frame offset =>
    unfold locate
    dsimp only
    split
    · exact List.forall_mem_nil _
    · simp [Instruction.target?]

/-- What the lines of a primitive jump to. -/
theorem target_mem_of_regular (hq : q.isInner = true) (hregular : q.Regular function targets)
    (hi : .instruction i ∈ lower q) (h : i.target? = some target) :
    target = exitLabel function ∨ target ∈ targets ∨ target ∈ q.defined true := by
  have hused : target ∈ q.used true := by
    rw [← used_lower]
    exact List.mem_flatMap.2 ⟨_, hi, mem_labels_of_target? h⟩
  have hnone {is : List Instruction} (his : ∀ i ∈ is, i.target? = none)
      (hi : .instruction i ∈ is.map Line.instruction) : False := instruction_notMem_map his h hi
  cases q with
  | jump name | jumpIfZero r name | jumpIfNotZero r name =>
    rw [List.mem_singleton.1 hused]
    exact hregular.elim .inl fun hmem => .inr (.inl hmem)
  | compare => exact .inr (.inr hused)
  | epilogue | entry | datum => cases hq
  | loadAddress | call => exact (hnone (List.forall_mem_singleton.2 rfl) hi).elim
  | load r place size | store place r size =>
    refine (hnone (List.forall_mem_append.2 ⟨target?_locate place, ?_⟩) hi).elim
    exact List.forall_mem_singleton.2 rfl
  | step place size delta =>
    refine (hnone (List.forall_mem_append.2 ⟨target?_locate place, ?_⟩) hi).elim
    simp [Instruction.target?]
  | _ => cases hused

end

/-! ### Functions -/

/-- At every call on a path from the given label on, the stack is aligned if it was at the label. -/
def CallsAligned (lines : List Line) (name : String) : Prop :=
  ∀ (labels : String → Word) (m m' : State) (start behind : List Line) (function : String),
    .label name :: start <:+ lines → Aligned (get m .sp) →
    Relation.ReflTransGen (Moves labels lines) (.label name :: start, m)
      (.instruction (.call function) :: behind, m') →
    Aligned (get m' .sp)

/-- At the end of every path from the given label on, the stack pointer is as it was at the label.
If the first two words of the frame are still the return address and the frame pointer of the
caller, then these are so too. -/
def ReturnsToCaller (lines : List Line) (name : String) (frame : Nat) : Prop :=
  ∀ (labels : String → Word) (m m' : State) (start behind : List Line),
    .label name :: start <:+ lines →
    Relation.ReflTransGen (Moves labels lines) (.label name :: start, m)
      (.instruction .ret :: behind, m') →
    get m' .sp = get m .sp ∧
    (readSpan m'.memory (.offset (get m .sp - Int64.ofNat frame) 0 8) = get m .ra →
      get m' .ra = get m .ra) ∧
    (readSpan m'.memory (.offset (get m .sp - Int64.ofNat frame) 8 8) = get m framePointer →
      get m' framePointer = get m framePointer)

section

variable {labels : String → Word} {m₀ m : State} {frame : Nat} {body rest behind : List Line}
  {noreturn : Bool}

theorem Stage.aligned_of_call {function : String} (h : Stage labels m₀ frame body noreturn rest m)
    (hrest : rest = .instruction (.call function) :: behind) (h₀ : Aligned (get m₀ .sp)) :
    Aligned (get m .sp) := by
  cases h with
  | straight hstep =>
    cases hrest
    cases hstep
  | inside _ hm => exact hm.aligned h₀
  | last hm => exact hm.sp_eq ▸ h₀
  | ended => cases hrest

theorem Stage.restored_of_ret (hsteady : ∀ line ∈ body, line.Steady)
    (h : Stage labels m₀ frame body noreturn rest m) (hrest : rest = .instruction .ret :: behind) :
    Restored m₀ frame m := by
  cases h with
  | straight hstep =>
    cases hrest
    cases hstep
  | inside hbody _ =>
    cases hrest
    exact absurd rfl (hsteady _ (hbody.subset (List.mem_cons_self ..))).2.2
  | last hm => exact hm
  | ended => cases hrest

/-- Where an element stands that is only in the middle. -/
theorem exists_suffix_middle {α : Type} {xs ys zs rest : List α} {x : α}
    (h : x :: rest <:+ xs ++ (ys ++ zs)) (hxs : x ∉ xs) (hzs : x ∉ zs) :
    ∃ more, x :: more <:+ ys ∧ rest = more ++ zs := by
  induction xs with
  | cons a xs ih =>
    rcases List.suffix_cons_iff.1 h with heq | h
    · cases heq
      exact absurd (List.mem_cons_self ..) hxs
    · exact ih h fun hmem => hxs (List.mem_cons_of_mem a hmem)
  | nil =>
    induction ys with
    | nil => exact absurd (h.subset (List.mem_cons_self ..)) hzs
    | cons y ys ih =>
      rcases List.suffix_cons_iff.1 h with heq | h
      · cases heq
        exact ⟨ys, List.suffix_rfl, rfl⟩
      · obtain ⟨more, hmore, heq⟩ := ih h
        exact ⟨more, hmore.trans (List.suffix_cons y ys), heq⟩

end

section

variable {f : FunctionDef} {frame : Nat} {inner : List (Primitive convention.registers)}
variable {target : String}

/-- The lines between the prologue and the epilogue of a function. -/
def bodyLines (f : FunctionDef) (inner : List (Primitive convention.registers)) : List Line :=
  inner.flatMap lower ++
    (lower (.loadConst (Native.result convention) 0) ++ [.label (exitLabel f.name)])

theorem lines_framed (f : FunctionDef) (frame : Nat)
    (inner : List (Primitive convention.registers)) :
    (framed f frame inner).flatMap lower = (exports f).flatMap lower ++
    ((.label f.name :: lower (.prologue frame)) ++
      (bodyLines f inner ++ lower (.epilogue frame f.attributes.noreturn))) := by
  have hparts (before enter body leave : List (Primitive 13)) :
      (before ++ (enter ++ body ++ leave)).flatMap lower =
      before.flatMap lower ++
      (enter.flatMap lower ++ (body.flatMap lower ++ leave.flatMap lower)) := by
    simp only [List.flatMap_append, List.append_assoc]
  refine (hparts (exports f) [.label f.name, .prologue frame] inner
    [.loadConst (Native.result convention) 0,
    .label (exitLabel f.name), .epilogue frame f.attributes.noreturn]).trans ?_
  simp only [bodyLines, List.flatMap_cons, List.flatMap_nil, List.append_nil, List.append_assoc]
  rfl

theorem steady_bodyLines (h : BodyOf true f frame inner) :
    ∀ line ∈ bodyLines f inner, line.Steady := by
  refine List.forall_mem_append.2 ⟨fun line hline => ?_, ?_⟩
  · obtain ⟨q, hq, hline⟩ := List.mem_flatMap.1 hline
    exact steady_lower (Native.isInner_of_mem h.isInner_eq hq) line hline
  · exact List.forall_mem_append.2 ⟨steady_lower rfl, List.forall_mem_singleton.2 trivial⟩

/-- The labels of a body are not the name of its function. -/
theorem label_notMem_bodyLines (h : BodyOf true f frame inner) :
    .label f.name ∉ bodyLines f inner := by
  rintro hmem
  rcases List.mem_append.1 hmem with hmem | hmem
  · obtain ⟨q, hq, hmem⟩ := List.mem_flatMap.1 hmem
    obtain ⟨k, heq⟩ := h.mem_defined _ (List.mem_flatMap.2 ⟨q, hq, mem_defined_of_label_mem hmem⟩)
    exact Native.ne_sectionSymbol _ _ (heq.trans (Native.innerLabel_eq ..))
  · have heq : f.name = exitLabel f.name := by simpa [lower, code] using hmem
    exact Native.ne_sectionSymbol _ _ (heq.trans (Native.exitLabel_eq _))

variable {i : Instruction}

/-- What a body jumps to is in the body. -/
theorem label_mem_bodyLines (h : BodyOf true f frame inner)
    (hi : .instruction i ∈ bodyLines f inner) (htarget : i.target? = some target) :
    .label target ∈ bodyLines f inner := by
  have hexit : .label (exitLabel f.name) ∈ bodyLines f inner := by simp [bodyLines]
  rcases List.mem_append.1 hi with hi | hi
  · obtain ⟨q, hq, hi⟩ := List.mem_flatMap.1 hi
    have hdefined : target = exitLabel f.name ∨
        target ∈ inner.flatMap (Primitive.defined true) := by
      rcases target_mem_of_regular (Native.isInner_of_mem h.isInner_eq hq) (h.regular q hq) hi
        htarget with heq | hmem | hmem
      · exact .inl heq
      · exact .inr hmem
      · exact .inr (List.mem_flatMap.2 ⟨q, hq, hmem⟩)
    rcases hdefined with rfl | hmem
    · exact hexit
    · obtain ⟨q', hq', hmem⟩ := List.mem_flatMap.1 hmem
      have hlabel := label_mem_lower (Native.isInner_of_mem h.isInner_eq hq') hmem
      exact List.mem_append_left _ (List.mem_flatMap.2 ⟨q', hq', hlabel⟩)
  · have heq : i = .loadConst (file (Native.result convention)) (Int64.toInt 0) := by
      simpa [lower, code] using hi
    cases heq
    cases htarget

/-- The prologue enters the body. -/
theorem exists_run_enter (labels : String → Word) (name : String) (hframe : 16 ∣ frame)
    (m : State) :
    ∃ m₁, run labels (.label name :: lower (.prologue frame)) m = some m₁ ∧ Ready m frame m₁ := by
  obtain ⟨m₁, hrun, hfp, hsp, -⟩ := run_prologue labels frame m
  refine ⟨m₁, hrun, hfp, fun haligned => ?_⟩
  rw [hsp, hfp]
  exact haligned.sub hframe

theorem label_notMem_exports (f : FunctionDef) (name : String) :
    .label name ∉ ((exports f : List (Primitive 13)).flatMap lower) := by
  intro hmem
  obtain ⟨q, hq, hmem⟩ := List.mem_flatMap.1 hmem
  obtain ⟨symbol, rfl⟩ := Native.isExport_of_mem_exports hq
  exact label_notMem_lower rfl hmem

/-- The label of a function stands in front of its prologue only. -/
theorem eq_of_label_name_suffix (h : BodyOf true f frame inner) {start : List Line}
    (hstart : .label f.name :: start <:+ (framed f frame inner).flatMap lower) : start =
      lower (.prologue frame) ++
      (bodyLines f inner ++ lower (.epilogue frame f.attributes.noreturn)) := by
  have hlines : (framed f frame inner).flatMap lower = (exports f).flatMap lower ++
      ([.label f.name] ++
      (lower (.prologue frame) ++
        (bodyLines f inner ++ lower (.epilogue frame f.attributes.noreturn)))) :=
    lines_framed f frame inner
  rw [hlines] at hstart
  have hprologue : .label f.name ∉ lower (.prologue frame) := label_notMem_lower rfl
  have hepilogue : .label f.name ∉ lower (.epilogue frame f.attributes.noreturn) :=
    label_notMem_lower rfl
  obtain ⟨more, hmore, rfl⟩ := exists_suffix_middle hstart (label_notMem_exports f f.name)
    (by simp [hprologue, label_notMem_bodyLines h, hepilogue])
  have hlength := hmore.length_le
  obtain rfl : more = [] := List.length_eq_zero_iff.1 (by simpa using hlength)
  rfl

/-- The labels that are jumped to stand in the body only. -/
theorem exists_of_label_suffix (h : BodyOf true f frame inner) {behind : List Line}
    (hi : .instruction i ∈ bodyLines f inner) (htarget : i.target? = some target)
    (hlabel : .label target :: behind <:+ (framed f frame inner).flatMap lower) :
    ∃ rest, rest <:+ bodyLines f inner ∧
      .label target :: behind = rest ++ lower (.epilogue frame f.attributes.noreturn) := by
  rw [lines_framed, ← List.append_assoc] at hlabel
  have hne : target ≠ f.name := by
    rintro rfl
    exact label_notMem_bodyLines h (label_mem_bodyLines h hi htarget)
  have hprologue : .label target ∉ lower (.prologue frame) := label_notMem_lower rfl
  obtain ⟨more, hmore, rfl⟩ := exists_suffix_middle hlabel
    (by simp [label_notMem_exports f target, hne, hprologue]) (label_notMem_lower rfl)
  exact ⟨_, hmore, rfl⟩

theorem target?_adjustStack (delta : Int) : ∀ i ∈ adjustStack delta, i.target? = none := by
  unfold adjustStack
  split <;> simp [Instruction.target?]

/-- The labels that a function jumps to are its own. -/
theorem label_mem_framed (h : BodyOf true f frame inner)
    (hi : .instruction i ∈ (framed f frame inner).flatMap lower)
    (htarget : i.target? = some target) : .label target ∈ (framed f frame inner).flatMap lower := by
  rw [lines_framed] at hi ⊢
  rcases List.mem_append.1 hi with hi | hi
  · obtain ⟨q, hq, hi⟩ := List.mem_flatMap.1 hi
    obtain ⟨symbol, rfl⟩ := Native.isExport_of_mem_exports hq
    cases List.mem_singleton.1 hi
  · rcases List.mem_append.1 hi with hi | hi
    · have hprologue : ∀ i ∈ code (.prologue frame), i.target? = none :=
        List.forall_mem_append.2 ⟨target?_adjustStack _, by simp [Instruction.target?]⟩
      rcases List.mem_cons.1 hi with hi | hi
      · cases hi
      · exact absurd hi (instruction_notMem_map hprologue htarget)
    · rcases List.mem_append.1 hi with hi | hi
      · have hmem := label_mem_bodyLines h hi htarget
        exact List.mem_append_right _ (List.mem_append_right _ (List.mem_append_left _ hmem))
      · have hepilogue : ∀ i ∈ code (.epilogue frame f.attributes.noreturn), i.target? = none := by
          refine List.forall_mem_append.2 ⟨List.forall_mem_append.2 ⟨?_, target?_adjustStack _⟩, ?_⟩
          · simp [Instruction.target?]
          · cases f.attributes.noreturn <;> simp [Instruction.target?]
        exact absurd hi (instruction_notMem_map hepilogue htarget)

/-- The invariant of the paths through a function. -/
theorem phase_of_path (h : BodyOf true f frame inner) {labels : String → Word} {m : State}
    {start : List Line} (hstart : .label f.name :: start <:+ (framed f frame inner).flatMap lower)
    (hpath : Relation.ReflTransGen (Moves labels ((framed f frame inner).flatMap lower))
      (.label f.name :: start, m) x) :
    Phase labels m frame (bodyLines f inner) f.attributes.noreturn x := by
  induction hpath with
  | refl =>
    obtain ⟨m₁, hrun, hready⟩ := exists_run_enter labels f.name h.dvd_frame m
    rw [eq_of_label_name_suffix h hstart, ← List.cons_append]
    exact .enter hrun hready
  | tail _ hmoves ih =>
    exact ih.moves (steady_bodyLines h) (fun _ _ _ => exists_of_label_suffix h) hmoves

/-- The stack is aligned at every call of a function. -/
theorem callsAligned_framed (h : BodyOf true f frame inner) :
    CallsAligned ((framed f frame inner).flatMap lower) f.name := by
  intro labels m m' start behind function hstart haligned hpath
  exact (phase_of_path h hstart hpath).stage.aligned_of_call rfl haligned

/-- A function returns with the registers of the caller. -/
theorem returnsToCaller_framed (h : BodyOf true f frame inner) :
    ReturnsToCaller ((framed f frame inner).flatMap lower) f.name frame := by
  intro labels m m' start behind hstart hpath
  have hrestored := (phase_of_path h hstart hpath).stage.restored_of_ret (steady_bodyLines h) rfl
  exact ⟨hrestored.sp_eq, hrestored.ra_eq.trans, hrestored.framePointer_eq.trans⟩

end

/-! ### The entry of the system -/

/-- The stack is aligned everywhere if no instruction moves it by anything else than multiples of
sixteen. -/
theorem callsAligned_of_keepsAligned (h : ∀ i, .instruction i ∈ lines → i.KeepsAligned)
    (name : String) : CallsAligned lines name := by
  intro labels m m' start behind function hstart haligned hpath
  have hinvariant : ∀ x, Relation.ReflTransGen (Moves labels lines) (.label name :: start, m) x →
      x.1 <:+ lines ∧ Aligned (get x.2 .sp) := by
    intro x hpath
    induction hpath with
    | refl => exact ⟨hstart, haligned⟩
    | @tail x y _ hmoves ih =>
      obtain ⟨hsuffix, haligned⟩ := ih
      cases hmoves with
      | @line line rest m m' hstep =>
        refine ⟨(List.suffix_cons line rest).trans hsuffix, ?_⟩
        cases line with
        | instruction i =>
          exact (h i (hsuffix.subset (List.mem_cons_self ..))).aligned hstep haligned
        | label name =>
          cases hstep
          exact haligned
        | _ => cases hstep
      | jump _ hlabel => exact ⟨hlabel, haligned⟩
      | pass => exact ⟨(List.suffix_cons ..).trans hsuffix, haligned⟩
      | call hsp => exact ⟨(List.suffix_cons ..).trans hsuffix, hsp ▸ haligned⟩
  exact (hinvariant _ hpath).2

theorem keepsAligned_entryCode (function : String) : ∀ i ∈ entryCode function, i.KeepsAligned := by
  have hfirst : file 0 = .x 5 := rfl
  have hsecond : file 1 = .x 6 := rfl
  simp [entryCode, preserved, hfirst, hsecond, Instruction.KeepsAligned, Instruction.Leaves,
    Instruction.written?, Reg.number]

theorem callsAligned_entry (function name : String) :
    CallsAligned (lower (.entry function)) name := by
  refine callsAligned_of_keepsAligned (fun i hi => keepsAligned_entryCode function i ?_) name
  simpa [lower] using hi

/-! ### Programs -/

/-- A primitive accesses the bytes at an offset from the frame pointer, and nothing else. -/
def AddressesLocal (q : Primitive 13) (offset size : Nat) : Prop :=
  ∀ (labels : String → Word) (m : State), ∃ m' k, run labels (lower q) m = some m' ∧
    m'.accesses = m.accesses ++ List.replicate (k + 1) (.offset (get m framePointer) offset size)

/-- Between two states the frame pointer and the first two words of the frame have not changed. -/
structure Balanced (m m' : State) : Prop where
  framePointer_eq : get m' framePointer = get m framePointer
  first_eq : readSpan m'.memory (.offset (get m framePointer) 0 8) =
    readSpan m.memory (.offset (get m framePointer) 0 8)
  second_eq : readSpan m'.memory (.offset (get m framePointer) 8 8) =
    readSpan m.memory (.offset (get m framePointer) 8 8)

/-- Behind a balanced body the epilogue gives the caller its registers back. -/
theorem exists_run_frame (labels : String → Word) (frame : Nat) (m : State) :
    ∃ m₁, run labels (lower (.prologue frame)) m = some m₁ ∧ ∀ m₂, Balanced m₁ m₂ →
      ∃ m₃, run labels ((leaveCode frame).map .instruction) m₂ = some m₃ ∧ get m₃ .sp = get m .sp ∧
        get m₃ framePointer = get m framePointer ∧ get m₃ .ra = get m .ra := by
  obtain ⟨m₁, hrun, hfp, -, -, hfirst, hsecond⟩ := run_prologue labels frame m
  refine ⟨m₁, hrun, fun m₂ hbalanced => ?_⟩
  obtain ⟨m₃, hrun₃, hsp₃, hra₃, hfp₃, -⟩ := exists_run_leaveCode labels frame m₂
  rw [hbalanced.framePointer_eq] at hsp₃ hra₃ hfp₃
  refine ⟨m₃, hrun₃, ?_, ?_, ?_⟩
  · rw [hsp₃, hfp, Int64.sub_add_cancel]
  · rw [hfp₃, hbalanced.second_eq, hsecond]
  · rw [hra₃, hbalanced.first_eq, hfirst]

/-- The stack is kept at every size. An access to a local goes to its offset from the frame pointer,
whatever the offset is. Whatever the size of a frame is, behind a balanced body the epilogue
restores the stack pointer, the frame pointer and the return address. In the native code of a
program the constants of additions, loads and stores have twelve bits. On the paths through a
retained function with statements, which jump within the function only, the stack is aligned at
every call if it is aligned at the start, and the function returns with the stack pointer of the
caller. The stack is also aligned at the call that the entry of the system makes. -/
theorem stack_sound :
    (∀ (q : Primitive 13) (offset size : Nat), q.local? = some (offset, size) →
      size = 1 ∨ size = 8 → AddressesLocal q offset size) ∧
    (∀ (frame : Nat) (noreturn : Bool), lower (.epilogue frame noreturn) =
        (leaveCode frame).map .instruction ++ [.instruction (leaveInstruction noreturn)] ∧
      ∀ (labels : String → Word) (m : State), ∃ m₁,
        run labels (lower (.prologue frame)) m = some m₁ ∧
        ∀ m₂, Balanced m₁ m₂ → ∃ m₃, run labels ((leaveCode frame).map .instruction) m₂ = some m₃ ∧
          get m₃ .sp = get m .sp ∧ get m₃ framePointer = get m framePointer ∧
          get m₃ .ra = get m .ra) ∧
    ∀ (p : Program) (asm : String), p.toAssembly .riscv = .ok asm →
      ∃ (N : Names) (kept : List (FunctionCode 13)) (entry trap data code : List (Primitive 13))
        (pool : List String), Native.Assembled true p N kept entry trap data pool code ∧
        asm = String.join (code.map Architecture.riscv.render) ∧
        (∀ line ∈ code.flatMap lower, line.Encodable) ∧
        (∀ q ∈ code, ∀ offset size, q.local? = some (offset, size) → AddressesLocal q offset size) ∧
        (∀ u ∈ kept, ¬ u.function.IsAssembly → ∃ frame, .prologue frame ∈ u.code ∧
          (∀ i target, .instruction i ∈ u.code.flatMap lower → i.target? = some target →
            .label target ∈ u.code.flatMap lower) ∧
          CallsAligned (u.code.flatMap lower) u.function.name ∧
          ReturnsToCaller (u.code.flatMap lower) u.function.name frame) ∧
        ∀ q ∈ entry, CallsAligned (lower q) Native.systemEntry := by
  refine ⟨fun q offset size hlocal hsize labels m => run_access hlocal hsize labels m,
    fun frame noreturn => ⟨lower_epilogue frame noreturn,
      fun labels m => exists_run_frame labels frame m⟩,
    fun p asm h => ?_⟩
  obtain ⟨code, hnative, hasm⟩ := Fallible.except_bind_eq_ok.1 h
  cases hasm
  obtain ⟨N, kept, entry, trap, data, pool, hall, hunits⟩ :=
    Native.assembled_units_of_toNative true hnative
  have hN : N.Keyed := fun _ _ hf => (FunctionTable.mem_of_get? hall.functions hf).2
  refine ⟨N, kept, entry, trap, data, code, pool, hall, rfl, fun line hline => ?_,
    fun q hq offset size hlocal => ?_, fun u hu hf => ?_, fun q hq => ?_⟩
  · obtain ⟨q, hq, hline⟩ := List.mem_flatMap.1 hline
    obtain ⟨⟨function, targets, hregular⟩, -⟩ := hall.regular_of_mem hN hunits hq
    exact encodable_lower hregular line hline
  · have hsize := (hall.regular_of_mem hN hunits hq).2 offset size hlocal
    exact fun labels m => run_access hlocal hsize labels m
  · obtain ⟨lo, hi, strings, strings', hunit⟩ := hunits u hu
    obtain ⟨frame, inner, hcode, hbody⟩ := Native.exists_bodyOf true hN hf hunit
    rw [hcode]
    exact ⟨frame, (Native.prologue_mem_framed_iff hbody.isInner_eq).2 rfl,
      fun i target hi htarget => label_mem_framed hbody hi htarget, callsAligned_framed hbody,
      returnsToCaller_framed hbody⟩
  · rcases hall.entry_eq with ⟨rfl, -⟩ | ⟨rfl, -⟩
    · rw [List.mem_singleton.1 hq]
      exact callsAligned_entry Program.entryPoint Native.systemEntry
    · cases hq

/-- A function that calls itself inside an argument of a call, while a register is put aside. -/
def nestedCall : FunctionDef :=
  ⟨"spark", { keep := true }, [⟨"count", .int⟩], .int,
    .statements [.return_ (some (.binary .add (.lookup "count")
    (.call "spark" [.binary .mul (.lookup "count") (.call "spark" [.lookup "count"])])))]⟩

/-- The nested calls of `nestedCall` find an aligned stack. -/
theorem stack_sound_nestedCall :
    ∃ asm, Program.toAssembly ⟨[.function nestedCall]⟩ .riscv = .ok asm ∧
    ∃ u : FunctionCode 13, u.function = nestedCall ∧ ¬ u.function.IsAssembly ∧
      CallsAligned (u.code.flatMap lower) "spark" := by
  have hnative : (Program.toNative ⟨[.function nestedCall]⟩ convention).toOption.isSome = true := by
    decide +kernel
  obtain ⟨code, hcode⟩ := Fallible.exists_ok_of_isSome hnative
  have hasm : Program.toAssembly ⟨[.function nestedCall]⟩ .riscv =
      .ok (String.join (code.map Architecture.riscv.render)) :=
    Fallible.except_bind_eq_ok.2 ⟨code, hcode, rfl⟩
  have hbody : ¬ nestedCall.IsAssembly := by
    rintro ⟨text, h⟩
    cases h
  obtain ⟨N, kept, entry, trap, data, code, pool, hall, -, -, -, hfunctions, -⟩ :=
    stack_sound.2.2 _ _ hasm
  obtain ⟨u, hu, hfunction⟩ := (hall.mem_kept_iff nestedCall (List.mem_cons_self ..)).2
    (.kept (List.mem_cons_self ..) rfl)
  obtain ⟨frame, -, -, haligned, -⟩ := hfunctions u hu (hfunction ▸ hbody)
  rw [hfunction] at haligned
  exact ⟨_, hasm, u, hfunction, hfunction ▸ hbody, haligned⟩

end Firestorm.Riscv
