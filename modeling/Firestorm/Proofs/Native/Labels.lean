import Firestorm.Native.Architecture

/-!
# The labels of assembly text

A line of assembly text defines labels and uses labels. Both are read off the lines of either
machine. One table on the primitives says the same of both machines but for comparisons, which one
of them does with a branch. A text that a function brings along in the language of the machine
counts as defining and using nothing.

## Main definitions

* `X86.Line.defined`, `X86.Line.used`, `Riscv.Line.defined`, `Riscv.Line.used`,
  `Architecture.defined`, `Architecture.used`, `Native.Primitive.defined`, `Native.Primitive.used`.

## Main results

* `Architecture.defined_eq`, `Architecture.used_eq`: the lines define and use what the tables say.
-/

namespace Firestorm

open Native (Convention Place Datum Primitive)

/-! ### The labels of lines -/

section

variable {Instruction Line : Type} {line : Instruction → Line} {labels : Line → List String}

/-- Lines of instructions have the labels of the instructions. -/
theorem labels_map {own : Instruction → List String} (h : ∀ i, labels (line i) = own i)
    (is : List Instruction) : (is.map line).flatMap labels = is.flatMap own := by
  rw [List.flatMap_map]
  exact congrArg (List.flatMap · is) (funext h)

theorem labels_map_eq_nil (h : ∀ i, labels (line i) = []) (is : List Instruction) :
    (is.map line).flatMap labels = [] := by
  rw [labels_map h, List.flatMap_eq_nil_iff]
  exact fun _ _ => rfl

/-- What an address or an index needs only sometimes has no labels. -/
theorem labels_unless {p : Prop} [Decidable p] {lines : List Line} (h : lines.flatMap labels = []) :
    (if p then [] else lines).flatMap labels = [] := by
  split
  · rfl
  · exact h

end

namespace X86

/-- The label of an address. -/
def Address.labels : Address → List String
  | .label name => [name]
  | .frame _ | .register _ => []

/-- The labels that an instruction jumps to, calls, or takes the address of. -/
def Instruction.labels : Instruction → List String
  | .movLabel _ label | .jump label | .jumpIfZero label | .jumpIfNotZero label | .call label =>
    [label]
  | .load _ _ address | .store _ address _ | .increase _ address | .decrease _ address =>
    address.labels
  | _ => []

/-- The labels that a line defines. -/
def Line.defined : Line → List String
  | .label name | .quad name _ | .address name _ | .byte name _ | .fragments name _ => [name]
  | _ => []

/-- The labels that a line uses. -/
def Line.used : Line → List String
  | .instruction i => i.labels
  | .address _ target => [target]
  | _ => []

@[simp] theorem defined_instructions (is : List Instruction) :
    (is.map Line.instruction).flatMap Line.defined = [] :=
  labels_map_eq_nil (fun _ => rfl) is

@[simp] theorem used_instructions (is : List Instruction) :
    (is.map Line.instruction).flatMap Line.used = is.flatMap Instruction.labels :=
  labels_map (fun _ => rfl) is

theorem labels_shiftBy (op : ShiftOp) (target amount : Reg) :
    (shiftBy op target amount).flatMap Instruction.labels = [] := by
  unfold shiftBy
  split
  · rfl
  · split <;> rfl

theorem labels_divideBy (target divisor : Reg) (remainder : Bool) :
    (divideBy target divisor remainder).flatMap Instruction.labels = [] := by
  unfold divideBy
  simp only [List.flatMap_append]
  rw [labels_unless rfl, labels_unless rfl, labels_unless rfl, labels_unless rfl, labels_unless rfl,
    labels_unless rfl]
  rfl

theorem labels_binary (op : BinaryOp) (target operand : Reg) :
    (binary op target operand).flatMap Instruction.labels = [] := by
  cases op with
  | div | mod => exact labels_divideBy ..
  | shiftLeft | shiftRight => exact labels_shiftBy ..
  | _ => rfl

theorem labels_scaleIndex (index : Reg) (size : Nat) :
    (scaleIndex index size).flatMap Instruction.labels = [] :=
  labels_unless rfl

end X86

namespace Riscv

/-- The labels that an instruction jumps to, calls, or takes the address of. -/
def Instruction.labels : Instruction → List String
  | .loadLabel _ label | .branch _ _ _ label | .branchIfZero _ label | .branchIfNotZero _ label |
    .jump label | .call label => [label]
  | _ => []

/-- The labels that a line defines. -/
def Line.defined : Line → List String
  | .label name | .quad name _ | .address name _ | .byte name _ | .string name _ => [name]
  | _ => []

/-- The labels that a line uses. -/
def Line.used : Line → List String
  | .instruction i => i.labels
  | .address _ target => [target]
  | _ => []

@[simp] theorem defined_instructions (is : List Instruction) :
    (is.map Line.instruction).flatMap Line.defined = [] :=
  labels_map_eq_nil (fun _ => rfl) is

@[simp] theorem used_instructions (is : List Instruction) :
    (is.map Line.instruction).flatMap Line.used = is.flatMap Instruction.labels :=
  labels_map (fun _ => rfl) is

theorem labels_scaleIndex (index : Reg) (size : Nat) :
    (scaleIndex index size).flatMap Instruction.labels = [] :=
  labels_unless rfl

theorem labels_adjustStack (delta : Int) :
    (adjustStack delta).flatMap Instruction.labels = [] := by
  unfold adjustStack
  split <;> rfl

theorem labels_branchOn (op : CompareOp) (left right : Reg) (label : String) :
    (branchOn op left right label).labels = [label] := by
  cases op <;> rfl

end Riscv

/-! ### The labels of primitives -/

/-- The label under which a variable is stored. -/
def Native.Place.labels : Place → List String
  | .frame _ => []
  | .data label => [label]

theorem X86.labels_addressOf (place : Place) (size : Nat) :
    (addressOf place size).labels = place.labels := by
  cases place <;> rfl

theorem Riscv.labels_locate (place : Place) :
    (locate place).1.flatMap Instruction.labels = place.labels := by
  cases place with
  | data label => rfl
  | frame offset =>
    unfold locate
    dsimp only
    split <;> rfl

namespace Native.Primitive

variable {n : Nat}

/-- The label whose address a primitive takes as a value. -/
def address? : Primitive n → Option String
  | .loadAddress _ name | .datum _ (.address name) => some name
  | _ => none

/-- The offset and the size of the part of the frame that a primitive reads or writes. -/
def local? : Primitive n → Option (Nat × Nat)
  | .load _ (.frame offset) size | .store (.frame offset) _ size | .step (.frame offset) size _ =>
    some (offset, size)
  | _ => none

/-- The primitives that read or write a part of the frame. -/
theorem local?_cases {q : Primitive n} {offset size : Nat} (h : q.local? = some (offset, size)) :
    (∃ target, q = .load target (.frame offset) size) ∨
    (∃ value, q = .store (.frame offset) value size) ∨
      ∃ delta, q = .step (.frame offset) size delta := by
  unfold local? at h
  split at h
  · cases h
    exact .inl ⟨_, rfl⟩
  · cases h
    exact .inr (.inl ⟨_, rfl⟩)
  · cases h
    exact .inr (.inr ⟨_, rfl⟩)
  · cases h

/-- Whether a primitive belongs to the body of a function, and not to what stands around it. -/
def isInner : Primitive n → Bool
  | .text | .data | .exportSymbol _ | .prologue _ | .epilogue _ _ | .datum _ _ | .string
    _ _ | .entry _ | .trap _ | .verbatim _ => false
  | _ => true

/-- Whether a primitive stands outside of functions. -/
def isOuter : Primitive n → Bool
  | .text | .data | .datum _ _ | .string _ _ | .entry _ | .trap _ => true
  | _ => false

/-- The label and the content of the string that a primitive defines. -/
def string? : Primitive n → Option (String × String)
  | .string name content => some (name, content)
  | _ => none

theorem string?_of_isInner {q : Primitive n} (h : q.isInner = true) : q.string? = none := by
  unfold string?
  split
  · cases h
  · rfl

/-- The labels that a primitive defines. Whether a comparison needs a label depends on the
machine. -/
def defined (branches : Bool) : Primitive n → List String
  | .label name | .trap name | .datum name _ | .string name _ => [name]
  | .entry _ => [systemEntry]
  | .compare _ _ _ _ name => if branches then [name] else []
  | _ => []

/-- The labels that a primitive uses. Whether a comparison needs a label depends on the machine. -/
def used (branches : Bool) : Primitive n → List String
  | .jump name | .jumpIfZero _ name | .jumpIfNotZero _ name | .loadAddress _ name | .call name |
    .entry name | .datum _ (.address name) => [name]
  | .load _ place _ | .store place _ _ | .step place _ _ => place.labels
  | .epilogue _ noreturn => if noreturn then [Program.unreachable] else []
  | .compare _ _ _ _ name => if branches then [name] else []
  | _ => []

end Native.Primitive

/-! ### Lines and primitives -/

namespace X86

theorem labels_entryCode (function : String) :
    (entryCode function).flatMap Instruction.labels = [function] := by
  simp [entryCode, save, restore, preserved, Instruction.labels]

theorem defined_lower (p : Primitive 14) : (lower p).flatMap Line.defined = p.defined false := by
  cases p with
  | text | data | exportSymbol _ | label _ | trap _ | string _ _ | verbatim _ => rfl
  | datum name value => cases value <;> rfl
  | entry function => exact congrArg (Native.systemEntry :: ·) (defined_instructions _)
  | _ => exact defined_instructions _

theorem used_lower (p : Primitive 14) : (lower p).flatMap Line.used = p.used false := by
  cases p with
  | text | data | exportSymbol _ | label _ | trap _ | string _ _ | verbatim _ => rfl
  | datum name value => cases value <;> rfl
  | entry function => exact (used_instructions _).trans (labels_entryCode function)
  | prologue frame =>
    refine (used_instructions _).trans ?_
    simp only [code, List.flatMap_append]
    split <;> rfl
  | epilogue frame noreturn => cases noreturn <;> rfl
  | load target place size | store place value size =>
    refine (used_instructions _).trans ((List.append_nil _).trans ?_)
    exact labels_addressOf place size
  | step place size delta =>
    refine (used_instructions _).trans ((List.append_nil _).trans ?_)
    split <;> exact labels_addressOf place size
  | loadElement base index size | storeElement base index value size =>
    refine (used_instructions _).trans ?_
    simp only [code, List.flatMap_append, labels_scaleIndex]
    rfl
  | binary op target operand => exact (used_instructions _).trans (labels_binary ..)
  | unary op target => cases op <;> rfl
  | bitTest target index scratch =>
    refine (used_instructions _).trans ?_
    simp only [code, bitTest, List.flatMap_append, labels_shiftBy]
    rfl
  | save registers | restore registers =>
    refine (used_instructions _).trans ?_
    simp [code, save, restore, Instruction.labels, Native.Primitive.used, List.flatMap_eq_nil_iff]
  | _ => rfl

end X86

namespace Riscv

theorem labels_entryCode (function : String) :
    (entryCode function).flatMap Instruction.labels = [function] := by
  simp [entryCode, preserved, Instruction.labels]

theorem defined_lower (p : Primitive 13) : (lower p).flatMap Line.defined = p.defined true := by
  cases p with
  | text | data | exportSymbol _ | label _ | trap _ | string _ _ | verbatim _ => rfl
  | compare _ _ _ _ _ => rfl
  | datum name value => cases value <;> rfl
  | entry function => exact congrArg (Native.systemEntry :: ·) (defined_instructions _)
  | _ => exact defined_instructions _

theorem used_lower (p : Primitive 13) : (lower p).flatMap Line.used = p.used true := by
  cases p with
  | text | data | exportSymbol _ | label _ | trap _ | string _ _ | verbatim _ => rfl
  | datum name value => cases value <;> rfl
  | entry function => exact (used_instructions _).trans (labels_entryCode function)
  | prologue frame =>
    refine (used_instructions _).trans ?_
    simp only [code, List.flatMap_append, labels_adjustStack]
    rfl
  | epilogue frame noreturn =>
    refine (used_instructions _).trans ?_
    simp only [code, List.flatMap_append, labels_adjustStack]
    cases noreturn <;> rfl
  | load target place size | store place value size | step place size delta =>
    refine (used_instructions _).trans ?_
    simp only [code, List.flatMap_append, labels_locate]
    exact List.append_nil _
  | loadElement base index size | storeElement base index value size =>
    refine (used_instructions _).trans ?_
    simp only [code, List.flatMap_append, labels_scaleIndex]
    rfl
  | compare op target operand scratch name =>
    have hbranch := labels_branchOn op (file target) (file operand) name
    simpa [lower, compareLines, Line.used, Instruction.labels, Native.Primitive.used] using hbranch
  | unary op target => cases op <;> rfl
  | save registers =>
    refine (used_instructions _).trans ?_
    simp only [code, save]
    split
    · rfl
    · exact labels_map_eq_nil (fun _ => rfl) _
  | restore registers =>
    refine (used_instructions _).trans ?_
    simp only [code, restore]
    split
    · rfl
    · rw [List.flatMap_append, labels_map_eq_nil fun _ => rfl]
      rfl
  | _ => rfl

end Riscv

namespace Architecture

/-- The labels that the lines of a primitive define. -/
def defined : (a : Architecture) → Primitive a.convention.registers → List String
  | x86, p => (X86.lower p).flatMap X86.Line.defined
  | riscv, p => (Riscv.lower p).flatMap Riscv.Line.defined

/-- The labels that the lines of a primitive use. -/
def used : (a : Architecture) → Primitive a.convention.registers → List String
  | x86, p => (X86.lower p).flatMap X86.Line.used
  | riscv, p => (Riscv.lower p).flatMap Riscv.Line.used

/-- Whether the comparisons of a machine are branches. -/
def branches : Architecture → Bool
  | x86 => false
  | riscv => true

theorem defined_eq (a : Architecture) : a.defined = Primitive.defined a.branches := by
  cases a with
  | x86 => exact funext X86.defined_lower
  | riscv => exact funext Riscv.defined_lower

theorem used_eq (a : Architecture) : a.used = Primitive.used a.branches := by
  cases a with
  | x86 => exact funext X86.used_lower
  | riscv => exact funext Riscv.used_lower

end Architecture

end Firestorm
