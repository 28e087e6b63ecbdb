import Mathlib
import Firestorm.Proofs.Bytecode.Decoding
import Firestorm.Proofs.Bytecode.Layout
import Firestorm.Proofs.Bytecode.TextLines

/-!
# Disassembling images

The code of an image is a row of operations: a byte for the operation, and operands whose number and
form depend on it. Nothing else in the image says where an operation starts. This file reads the
code from the end of the header to the end of the image and shows that an image that was linked from
a text is read as the instructions of the text, in their order, with values in the place of symbols.

Labels and the definitions of symbols take no bytes, also where they stand between an operation and
its operands, so that a label has the address of the next operation, or of the end of the image.

## Main definitions

* `Bytecode.operandKinds`, `Bytecode.readOperation?`, `Bytecode.disassemble`,
  `Bytecode.ScopedLine.operation?`, `Bytecode.ValuesOf`.

## Main results

* `Bytecode.readOperation?_instruction`, `Bytecode.disassembleWithin_lines`.
* `Bytecode.disassemble_linked`: the same for the image of a text.
-/

namespace Firestorm.Bytecode

open StackMachine

/-! ### Reading code -/

/-- An operand of an operation. A text is given without its length and the zero behind it. -/
inductive Operand
  | word (value : UInt64)
  | byte (value : UInt8)
  | text (content : List UInt8)
deriving Repr, DecidableEq

/-- The forms of operands: eight bytes, one byte, and bytes behind their number and in front of a
zero. -/
inductive OperandKind
  | word
  | byte
  | text
deriving Repr, DecidableEq

/-- The operands of an operation. -/
def operandKinds : Opcode → List OperandKind
  | .global | .variable_ => [.word, .byte, .byte]
  | .assign | .assignIndexed | .load | .loadIndexed | .increase | .decrease => [.word]
  | .number => [.word]
  | .string => [.text]
  | .goto | .gotoTrue | .gotoFalse | .invoke | .invokeNative => [.word]
  | .return_ | .add | .sub | .mul | .div | .mod | .less | .lessEquals | .more | .moreEquals
  | .equals | .notEquals | .or | .and | .xor | .not | .shiftLeft | .shiftRight | .invert
  | .noreturn | .delete => []

/-- The operand at the start of code, and the code behind it. -/
def OperandKind.read? : OperandKind → List UInt8 → Option (Operand × List UInt8)
  | word, code => (readWord code).map fun r => (.word r.1, r.2)
  | byte, code => (readByte code).map fun r => (.byte r.1, r.2)
  | text, code => do
    let (length, code) ← readWord code
    if code[length.toNat]? = some 0 then
      return (.text (code.take length.toNat), code.drop (length.toNat + 1))
    else none

/-- The operands at the start of code, and the code behind them. -/
def readOperands? : List OperandKind → List UInt8 → Option (List Operand × List UInt8)
  | [], code => some ([], code)
  | kind :: kinds, code => do
    let (operand, code) ← kind.read? code
    let (operands, code) ← readOperands? kinds code
    return (operand :: operands, code)

/-- An operation with its operands. -/
structure Operation where
  opcode : Opcode
  operands : List Operand
deriving Repr, DecidableEq

/-- The operation at the start of code, and the code behind it. -/
def readOperation? (code : List UInt8) : Option (Operation × List UInt8) := do
  let (b, code) ← readByte code
  let op ← Opcode.ofByte? b
  let (operands, code) ← readOperands? (operandKinds op) code
  return (⟨op, operands⟩, code)

/-- The operations of code that starts at an offset, with their offsets. There must be nothing
between them and nothing left behind them, and at most the given number of them. -/
def disassembleWithin : Nat → (offset : Nat) → List UInt8 → Option (List (Nat × Operation))
  | _, _, [] => some []
  | 0, _, _ :: _ => none
  | n + 1, offset, b :: code => do
    let (operation, rest) ← readOperation? (b :: code)
    let others ← disassembleWithin n (offset + (code.length + 1 - rest.length)) rest
    return (offset, operation) :: others

/-- The operations of an image, behind its header, with their offsets in the image. -/
def disassemble (image : List UInt8) : Option (List (Nat × Operation)) :=
  disassembleWithin image.length 24 (image.drop 24)

/-! ### Operations of the text -/

/-- An operand in a text: known, or the value of a symbol. -/
inductive SymbolicOperand
  | known (operand : Operand)
  | symbol (name : String)
deriving Repr, DecidableEq

/-- The operand when symbols have values. -/
def SymbolicOperand.value? (symbols : SymbolValues) : SymbolicOperand → Option Operand
  | known operand => some operand
  | symbol name => (symbols.get? name).map .word

/-- A word that is a number of a variable. -/
def slotOperand (slot : Nat) : SymbolicOperand :=
  .known (.word slot.toUInt64)

/-- The operands of a declaration. -/
def declarationOperands (slot : Nat) (d : Datatype) : List SymbolicOperand :=
  [slotOperand slot, .known (.byte (typeTag d.kind)), .known (.byte (if d.array then 1 else 0))]

/-- The operands of an instruction. Globals are numbered from zero in the order of their
declaration, the variables of a section from `localSlotBase` on, and a name that is no variable of
the section is a symbol. -/
def Naming.symbolicOperands (k : Naming) (sectionName : String) : Instruction → List SymbolicOperand
  | .global b => declarationOperands ((insertName k.globals b.name).idxOf b.name) b.datatype
  | .variable_ b =>
    declarationOperands (localSlotBase + (insertName k.locals b.name).idxOf b.name) b.datatype
  | .access _ name =>
    [if name ∈ k.locals then slotOperand (localSlotBase + k.locals.idxOf name)
      else .symbol (globalSymbol name)]
  | .number value => [.known (.word value.toUInt64)]
  | .string content => [.known (.text (Text.utf8 content.toList))]
  | .jump _ label => [.symbol (sectionSymbol sectionName label)]
  | .invoke callee => [.symbol callee]
  | .invokeNative callee => [.known (.word (natives.idxOf callee).toUInt64)]
  | .plain _ => []

/-- An operation with symbols for values. -/
structure SymbolicOperation where
  opcode : Opcode
  operands : List SymbolicOperand
deriving Repr, DecidableEq

/-- The operation when symbols have values. -/
def SymbolicOperation.value? (symbols : SymbolValues) (s : SymbolicOperation) : Option Operation :=
  (s.operands.mapM (SymbolicOperand.value? symbols)).map (⟨s.opcode, ·⟩)

/-- The operation of a line, if it is an instruction. -/
def ScopedLine.operation? (l : ScopedLine) : Option SymbolicOperation :=
  match l.line with
  | .label _ => none
  | .instruction i => some ⟨i.opcode, l.names.symbolicOperands l.sectionName i⟩

/-- The operations of lines, in order. -/
def operationsOf (lines : List ScopedLine) : List SymbolicOperation :=
  lines.filterMap ScopedLine.operation?

/-! ### One operation -/

section

variable (symbols : SymbolValues)
variable {name : String} {addresses : List Nat}

theorem read?_word (value : UInt64) (rest : List UInt8) :
    OperandKind.word.read? (wordBytes value ++ rest) = some (.word value, rest) := by
  simp only [OperandKind.read?, readWord_wordBytes, Option.map_some]

theorem read?_text {content : List UInt8} (h : content.length < 2 ^ 64) (rest : List UInt8) :
    OperandKind.text.read?
      (wordBytes (Int64.ofNat content.length).toUInt64 ++ (content ++ ([0] ++ rest))) =
        some (.text content, rest) := by
  simp only [OperandKind.read?, readWord_wordBytes, Option.bind_eq_bind, Option.bind_some,
    toNat_toUInt64_ofNat h]
  rw [if_pos (by rw [List.getElem?_append_right (Nat.le_refl _), Nat.sub_self]; rfl),
    List.take_left, List.drop_append, List.drop_eq_nil_of_le (Nat.le_succ _),
    Nat.add_sub_cancel_left]
  rfl

theorem readOperands?_singleton {kind : OperandKind} {code rest : List UInt8} {operand : Operand}
    (h : kind.read? code = some (operand, rest)) :
    readOperands? [kind] code = some ([operand], rest) := by
  simp only [readOperands?, h, Option.bind_eq_bind, Option.bind_some]
  rfl

theorem readOperands?_declaration (slot : Nat) (d : Datatype) (rest : List UInt8) :
    ∃ operands, (declarationOperands slot d).mapM (SymbolicOperand.value? symbols) = some operands ∧
      readOperands? [.word, .byte, .byte]
        (itemBytes symbols (declarationItems slot d.kind d.array) ++ rest) =
        some (operands, rest) := by
  refine ⟨[.word slot.toUInt64, .byte (typeTag d.kind), .byte (if d.array then 1 else 0)], rfl, ?_⟩
  simp only [declarationItems, itemBytes_cons, itemBytes_nil, resolved_quad, resolved_byte,
    List.append_assoc, readOperands?, read?_word, Option.bind_eq_bind, Option.bind_some]
  rfl

variable {symbols}

/-- A reference is read as the value of its symbol. -/
theorem readOperands?_reference {symbol : String} (h : Resolved symbols [.reference symbol])
    (rest : List UInt8) :
    ∃ operands, [SymbolicOperand.symbol symbol].mapM (SymbolicOperand.value? symbols) =
      some operands ∧
      readOperands? [.word] (itemBytes symbols [.reference symbol] ++ rest) =
      some (operands, rest) := by
  obtain ⟨value, hvalue⟩ := h symbol List.mem_cons_self
  refine ⟨[.word value], ?_, readOperands?_singleton ?_⟩
  · simp only [List.mapM_cons, SymbolicOperand.value?, hvalue]
    rfl
  · simp only [itemBytes_cons, itemBytes_nil, resolved_reference, hvalue, Option.getD_some,
      List.append_nil, read?_word]

/-- The operands of an instruction are read. -/
theorem readOperands?_operandItems (k : Naming) (sectionName : String) (i : Instruction)
    (hresolved : Resolved symbols (k.operandItems sectionName i))
    (hsize : Item.totalSize (k.operandItems sectionName i) < 2 ^ 64) (rest : List UInt8) :
    ∃ operands,
      (k.symbolicOperands sectionName i).mapM (SymbolicOperand.value? symbols) = some operands ∧
      readOperands? (operandKinds i.opcode)
        (itemBytes symbols (k.operandItems sectionName i) ++ rest) = some (operands, rest) := by
  cases i with
  | global b =>
    rw [itemBytes_global]
    exact readOperands?_declaration ..
  | variable_ b => exact readOperands?_declaration ..
  | access a name =>
    have hkinds : operandKinds (Instruction.access a name).opcode = [.word] := by cases a <;> rfl
    rw [hkinds]
    simp only [Naming.operandItems, Naming.symbolicOperands] at hresolved ⊢
    split at hresolved
    · next hlocal =>
      rw [if_pos hlocal, if_pos hlocal]
      exact ⟨_, rfl, readOperands?_singleton (read?_word _ _)⟩
    · next hglobal =>
      rw [if_neg hglobal, if_neg hglobal]
      exact readOperands?_reference hresolved rest
  | number value => exact ⟨_, rfl, readOperands?_singleton (read?_word _ _)⟩
  | string content =>
    refine ⟨_, rfl, readOperands?_singleton ?_⟩
    have hlength : (Text.utf8 content.toList).length < 2 ^ 64 := by
      simp only [Naming.operandItems, Item.totalSize_cons, Item.size, List.length_append] at hsize
      omega
    simp only [Naming.operandItems, itemBytes_cons, itemBytes_nil, resolved_quad, resolved_bytes,
      List.append_nil, List.append_assoc]
    exact read?_text hlength rest
  | jump j label =>
    have hkinds : operandKinds (Instruction.jump j label).opcode = [.word] := by cases j <;> rfl
    rw [hkinds]
    exact readOperands?_reference hresolved rest
  | invoke callee => exact readOperands?_reference hresolved rest
  | invokeNative callee => exact ⟨_, rfl, readOperands?_singleton (read?_word _ _)⟩
  | plain p =>
    have hkinds : operandKinds (Instruction.plain p).opcode = [] := by
      cases p with
      | binary op => cases op <;> rfl
      | compare op => cases op <;> rfl
      | _ => rfl
    rw [hkinds]
    exact ⟨[], rfl, rfl⟩

/-- An instruction is read as its operation, whatever stands behind it. -/
theorem readOperation?_instruction (k : Naming) (sectionName : String) (i : Instruction)
    (hresolved : Resolved symbols (k.lineItems sectionName (.instruction i)))
    (hsize : Item.totalSize (k.lineItems sectionName (.instruction i)) < 2 ^ 64)
    (rest : List UInt8) : ∃ operation,
      SymbolicOperation.value? symbols ⟨i.opcode, k.symbolicOperands sectionName i⟩ =
      some operation ∧
      readOperation? (itemBytes symbols (k.lineItems sectionName (.instruction i)) ++ rest) =
        some (operation, rest) := by
  simp only [Naming.lineItems, Item.totalSize_cons] at hsize
  obtain ⟨operands, hvalue, hread⟩ := readOperands?_operandItems k sectionName i
    (resolved_cons.1 hresolved).2 (by omega) rest
  refine ⟨⟨i.opcode, operands⟩, ?_, ?_⟩
  · simp only [SymbolicOperation.value?, hvalue, Option.map_some]
  · simp only [Naming.lineItems, itemBytes_cons, resolved_byte, List.cons_append, List.nil_append,
      readOperation?, readByte, Option.bind_eq_bind, Option.bind_some, Opcode.ofByte?_byte, hread]
    rfl

/-! ### All operations -/

theorem resolved_append {items more : List Item} :
    Resolved symbols (items ++ more) ↔ Resolved symbols items ∧ Resolved symbols more := by
  simp only [Resolved, List.mem_append, or_imp, forall_and]

/-- The operation at the start of code is read first, and the rest where it ends. -/
theorem disassembleWithin_of_readOperation? {bytes rest : List UInt8} {operation : Operation}
    (h : readOperation? (bytes ++ rest) = some (operation, rest)) (hbytes : bytes ≠ [])
    (n offset : Nat) : disassembleWithin (n + 1) offset (bytes ++ rest) =
      (disassembleWithin n (offset + bytes.length) rest).map ((offset, operation) :: ·) := by
  obtain ⟨b, bytes, rfl⟩ := List.exists_cons_of_ne_nil hbytes
  have hlength : (bytes ++ rest).length + 1 - rest.length = (b :: bytes).length := by
    rw [List.length_append, List.length_cons]
    omega
  rw [List.cons_append] at h ⊢
  simp only [disassembleWithin, h, Option.bind_eq_bind, Option.bind_some, hlength]
  exact Option.map_eq_bind.symm

variable {l : ScopedLine}

theorem operationsOf_label (h : l.line = .label name) (lines : List ScopedLine) :
    operationsOf (l :: lines) = operationsOf lines := by
  rw [operationsOf, List.filterMap_cons_none (by rw [ScopedLine.operation?, h])]
  rfl

theorem operationsOf_instruction {i : Instruction} (h : l.line = .instruction i)
    (lines : List ScopedLine) : operationsOf (l :: lines) =
      ⟨i.opcode, l.names.symbolicOperands l.sectionName i⟩ :: operationsOf lines := by
  rw [operationsOf, List.filterMap_cons_some (by rw [ScopedLine.operation?, h])]
  rfl

/-- Addresses fit lines that start at an offset: behind as many addresses as the first of the lines
have operations stands the address where these lines end. -/
def Aligned (lines : List ScopedLine) (offset : Nat) (addresses : List Nat) : Prop :=
  ∀ before after, lines = before ++ after →
    addresses[(operationsOf before).length]? = some (offset + Item.totalSize (scopedItems before))

variable {lines : List ScopedLine}

theorem aligned_cons_of_label (hl : l.line = .label name) {offset : Nat}
    (h : Aligned lines offset addresses) : Aligned (l :: lines) offset addresses := by
  intro before after hsplit
  cases before with
  | nil => exact h [] lines rfl
  | cons first before =>
    obtain ⟨rfl, rfl⟩ := List.cons.inj hsplit
    have hitems : Item.totalSize (scopedItems (l :: before)) =
        Item.totalSize (scopedItems before) := by
      rw [scopedItems_cons, Item.totalSize_append, ScopedLine.items, hl]
      exact Nat.zero_add _
    rw [operationsOf_label hl, hitems]
    exact h before after rfl

theorem aligned_cons_of_instruction {i : Instruction} (hl : l.line = .instruction i) {offset : Nat}
    (h : Aligned lines (offset + Item.totalSize l.items) addresses) :
    Aligned (l :: lines) offset (offset :: addresses) := by
  intro before after hsplit
  cases before with
  | nil => rfl
  | cons first before =>
    obtain ⟨rfl, rfl⟩ := List.cons.inj hsplit
    rw [operationsOf_instruction hl, List.length_cons, List.getElem?_cons_succ, h before after rfl,
      scopedItems_cons, Item.totalSize_append, Nat.add_assoc]

/-- The code of lines is read as their operations, and each line stands where the operations in
front of it end. -/
theorem disassembleWithin_lines (lines : List ScopedLine) (n offset : Nat)
    (hresolved : Resolved symbols (scopedItems lines))
    (hsize : Item.totalSize (scopedItems lines) < 2 ^ 64)
    (hn : Item.totalSize (scopedItems lines) ≤ n) :
    ∃ code, disassembleWithin n offset (itemBytes symbols (scopedItems lines)) = some code ∧
      (operationsOf lines).mapM (SymbolicOperation.value? symbols) = some (code.map Prod.snd) ∧
      Aligned lines offset
        (code.map Prod.fst ++ [offset + Item.totalSize (scopedItems lines)]) := by
  induction lines generalizing n offset with
  | nil =>
    refine ⟨[], by cases n <;> rfl, rfl, fun before after hsplit => ?_⟩
    obtain ⟨rfl, rfl⟩ := List.append_eq_nil_iff.1 hsplit.symm
    rfl
  | cons l lines ih =>
    simp only [scopedItems_cons, itemBytes_append, Item.totalSize_append] at hsize hn ⊢
    obtain ⟨hline, hrest⟩ := resolved_append.1 (scopedItems_cons l lines ▸ hresolved)
    cases hl : l.line with
    | label name =>
      have hitems : l.items = [.label (labelSymbol l.sectionName name.toList)] := by
        rw [ScopedLine.items, hl, Naming.lineItems]
      have hzero : Item.totalSize l.items = 0 := by rw [hitems]; rfl
      obtain ⟨code, hcode, hoperations, haligned⟩ := ih n offset hrest (by omega) (by omega)
      refine ⟨code, ?_, ?_, ?_⟩
      · simp only [hitems, itemBytes_cons, itemBytes_nil, resolved_label, List.nil_append, hcode]
      · rw [operationsOf_label hl, hoperations]
      · rw [hzero, Nat.zero_add]
        exact aligned_cons_of_label hl haligned
    | instruction i =>
      have hitems : l.items = l.names.lineItems l.sectionName (.instruction i) := by
        rw [ScopedLine.items, hl]
      obtain ⟨operation, hvalue, hread⟩ := readOperation?_instruction l.names l.sectionName i
        (hitems ▸ hline) (hitems ▸ by omega) (itemBytes symbols (scopedItems lines))
      rw [← hitems] at hread
      have hlength := length_itemBytes symbols l.items
      have hpos : 0 < Item.totalSize l.items := by
        rw [hitems, Naming.lineItems, Item.totalSize_cons]
        exact Nat.add_pos_left Nat.one_pos _
      obtain ⟨n, rfl⟩ : ∃ m, n = m + 1 := ⟨n - 1, by omega⟩
      obtain ⟨code, hcode, hoperations, haligned⟩ :=
        ih n (offset + Item.totalSize l.items) hrest (by omega) (by omega)
      refine ⟨(offset, operation) :: code, ?_, ?_, ?_⟩
      · rw [disassembleWithin_of_readOperation? hread (List.ne_nil_of_length_pos (by omega)),
          hlength, hcode, Option.map_some]
      · rw [operationsOf_instruction hl, List.mapM_cons, hvalue, hoperations]
        rfl
      · rw [← Nat.add_assoc]
        exact aligned_cons_of_instruction hl haligned

/-! ### Values of symbols -/

/-- The symbol that a line defines: the one of a label, or of a declared global. -/
def ScopedLine.symbol? (l : ScopedLine) : Option String :=
  match l.line with
  | .label name => some (labelSymbol l.sectionName name.toList)
  | .instruction (.global b) => some (globalSymbol b.name)
  | .instruction _ => none

/-- Only the symbols that lines define are defined by their items. -/
theorem exists_symbol?_of_mem (h : name ∈ symbolsOf (scopedItems lines)) :
    ∃ l ∈ lines, l.symbol? = some name := by
  obtain ⟨item, hmem, hitem⟩ := List.mem_filterMap.1 h
  obtain ⟨l, hl, hmem⟩ := List.mem_flatMap.1 hmem
  have hsymbols : name ∈ symbolsOf l.items := List.mem_filterMap.2 ⟨item, hmem, hitem⟩
  refine ⟨l, hl, ?_⟩
  unfold ScopedLine.items at hsymbols
  unfold ScopedLine.symbol?
  cases hline : l.line with
  | label label =>
    rw [hline] at hsymbols
    exact congrArg some (List.mem_singleton.1 hsymbols).symm
  | instruction i =>
    rw [hline] at hsymbols
    cases i with
    | global b =>
      simp only [Naming.lineItems, Naming.operandItems, symbolsOf_cons, symbolsOf_append]
        at hsymbols
      split at hsymbols
      · exact absurd hsymbols List.not_mem_nil
      · exact congrArg some (List.mem_singleton.1 hsymbols).symm
    | access a other =>
      simp only [Naming.lineItems, Naming.operandItems] at hsymbols
      split at hsymbols <;> exact absurd hsymbols List.not_mem_nil
    | _ => exact absurd hsymbols List.not_mem_nil

/-- The symbols of globals are numbered as the globals are. -/
def NumbersGlobals (symbols : SymbolValues) (globals : List String) : Prop :=
  ∀ name ∈ globals, symbols.get? (globalSymbol name) = some (globals.idxOf name).toUInt64

/-- The constants among items are the values of their symbols. -/
def KeepsConstants (symbols : SymbolValues) (items : List Item) : Prop :=
  ∀ name value, .constant name value ∈ items → symbols.get? name = some value

theorem numbersGlobals_insertName {globals : List String} (h : NumbersGlobals symbols globals)
    (hname : name ∉ globals → symbols.get? (globalSymbol name) = some globals.length.toUInt64) :
    NumbersGlobals symbols (insertName globals name) := by
  unfold insertName
  split
  · exact h
  · next hnew =>
    intro other hother
    rcases List.mem_append.1 hother with hold | hother
    · rw [h other hold, List.idxOf_append_of_mem hold]
    · obtain rfl := List.mem_singleton.1 hother
      rw [hname hnew, List.idxOf_append_of_notMem hnew, List.idxOf_cons_self, Nat.add_zero]

theorem numbersGlobals_after {k : Naming} {line : CodeLine} (sectionName : String)
    (h : NumbersGlobals symbols k.globals)
    (hconstants : KeepsConstants symbols (k.lineItems sectionName line)) :
    NumbersGlobals symbols (k.after line).globals := by
  unfold Naming.after
  split
  · next b =>
    refine numbersGlobals_insertName h fun hnew => hconstants _ _ ?_
    simp only [Naming.lineItems, Naming.operandItems, if_neg hnew]
    exact List.mem_cons_of_mem _ List.mem_cons_self
  · exact h
  · exact h

/-- What is declared in front of a line of a text has the number of its symbol. -/
theorem numbersGlobals_of_readLines? {s : Scope} {texts : List (List Char)}
    (h : readLines? s texts = some lines) (hs : NumbersGlobals symbols s.names.globals)
    (hconstants : KeepsConstants symbols (scopedItems lines)) :
    ∀ l ∈ lines, NumbersGlobals symbols l.names.globals := by
  induction texts generalizing s lines with
  | nil =>
    cases h
    simp
  | cons text texts ih =>
    obtain ⟨line, -, h⟩ := Option.bind_eq_some_iff.1 h
    obtain ⟨first, hfirst, h⟩ := Option.bind_eq_some_iff.1 h
    obtain ⟨others, hothers, h⟩ := Option.bind_eq_some_iff.1 h
    cases h
    rw [scopedItems_append] at hconstants
    have hrest : NumbersGlobals symbols (s.after line).names.globals →
        ∀ l ∈ others, NumbersGlobals symbols l.names.globals := fun hafter =>
      ih hothers hafter fun name value hmem => hconstants name value (List.mem_append_right _ hmem)
    cases line with
    | code line =>
      obtain ⟨sectionName, -, rfl⟩ := Option.map_eq_some_iff.1 hfirst
      have hafter : NumbersGlobals symbols (s.names.after line).globals :=
        numbersGlobals_after sectionName hs fun name value hmem =>
          hconstants name value (List.mem_append_left _ (List.mem_append_left _ hmem))
      exact List.forall_mem_cons.2 ⟨hs, hrest hafter⟩
    | _ =>
      cases hfirst
      exact hrest hs

/-- The values of symbols when the operations of a text stand at the given addresses, the last of
which is where they end. A label has the address of the operation behind it, a global has its
number, and no other symbol has a value. -/
structure ValuesOf (lines : List ScopedLine) (addresses : List Nat) (symbols : SymbolValues) :
    Prop where
  label : ∀ before l after name, lines = before ++ l :: after → l.line = .label name →
    ∃ address, symbols.get? (labelSymbol l.sectionName name.toList) = some address ∧
      addresses[(operationsOf before).length]? = some address.toNat
  global : ∀ l ∈ lines, ∀ b, l.line = .instruction (.global b) →
    symbols.get? (globalSymbol b.name) =
      some ((insertName l.names.globals b.name).idxOf b.name).toUInt64
  only : ∀ name value, symbols.get? name = some value → ∃ l ∈ lines, l.symbol? = some name

/-- Symbols that have the values of the definitions among the items of a text have those of its
lines. -/
theorem valuesOf_of_assignsValues {text : String} (hlines : readText? text = some lines)
    (hvalues : AssignsValues (scopedItems lines) symbols)
    (hother : ∀ name, name ∉ symbolsOf (scopedItems lines) → symbols.get? name = none)
    (haligned : Aligned lines 24 addresses)
    (hsize : 24 + Item.totalSize (scopedItems lines) < 2 ^ 64) :
    ValuesOf lines addresses symbols where
  label before l after name hsplit hl := by
    have hitems : scopedItems lines = scopedItems before ++
        .label (labelSymbol l.sectionName name.toList) :: scopedItems after := by
      rw [hsplit, scopedItems_append, scopedItems_cons, ScopedLine.items, hl]
      rfl
    have hbefore : Item.totalSize (scopedItems before) ≤ Item.totalSize (scopedItems lines) := by
      rw [hitems, Item.totalSize_append]
      exact Nat.le_add_right ..
    refine ⟨_, hvalues.label _ _ _ hitems, ?_⟩
    rw [haligned before (l :: after) hsplit]
    exact congrArg some (Nat.mod_eq_of_lt (by omega)).symm
  global l hmem b hl := by
    have hglobals := numbersGlobals_of_readLines? hlines (by simp [NumbersGlobals])
      hvalues.constant l hmem
    have hafter : NumbersGlobals symbols (l.names.after l.line).globals :=
      numbersGlobals_after l.sectionName hglobals fun name value hitem =>
        hvalues.constant name value (List.mem_flatMap.2 ⟨l, hmem, hitem⟩)
    rw [hl] at hafter
    exact hafter b.name (mem_insertName.2 (.inr rfl))
  only name value hvalue := by
    refine exists_symbol?_of_mem (Classical.byContradiction fun hnot => ?_)
    rw [hother name hnot] at hvalue
    cases hvalue

end

/-- What linking leaves in an output that was empty. -/
theorem link_of_linkInto {items : List Item} {o : Output}
    (h : (linkInto items).run.run {} = (.ok (), o)) : link items = .ok o.buffer := by
  obtain ⟨position, hrun, -⟩ := run_linkInto items {}
  obtain ⟨hok, houtput⟩ := Prod.mk.inj (h.symm.trans hrun)
  have hnone := Draft.outcome_eq_ok.1 hok.symm
  have hbuffer : o.buffer = (draft items).bytes := by
    rw [houtput, overlay_eq]
    simp [padded]
  rw [hbuffer, link, hnone]

/-- An image that was linked from a text is read from its header to its end, and the operations in
it are those of the instructions of the text, in order, with the values of symbols. Every label has
the address of an operation, or of the end. -/
theorem disassemble_linked {text : String} {items : List Item} {o : Output}
    (hencode : encode text = .ok items) (hlink : (linkInto items).run.run {} = (.ok (), o))
    (hsize : o.buffer.length < 2 ^ 64) :
    ∃ lines symbols code, readText? text = some lines ∧ disassemble o.buffer = some code ∧
      (operationsOf lines).mapM (SymbolicOperation.value? symbols) = some (code.map Prod.snd) ∧
      ValuesOf lines (code.map Prod.fst ++ [o.buffer.length]) symbols := by
  obtain ⟨lines, hlines, rfl⟩ := encode_eq_ok hencode
  obtain ⟨symbols, hbuffer, hresolved, hdefines, hother, -⟩ := link_eq_ok (link_of_linkInto hlink)
  have hheader : (itemBytes symbols headerItems).length = 24 := length_itemBytes symbols headerItems
  change o.buffer = itemBytes symbols (headerItems ++ scopedItems lines) at hbuffer
  rw [itemBytes_append] at hbuffer
  have hlength : o.buffer.length = 24 + Item.totalSize (scopedItems lines) := by
    rw [hbuffer, List.length_append, hheader, length_itemBytes]
  obtain ⟨code, hcode, hoperations, haligned⟩ := disassembleWithin_lines lines o.buffer.length 24
    (resolved_append.1 hresolved).2 (by omega) (by omega)
  refine ⟨lines, symbols, code, hlines, ?_, hoperations, ?_⟩
  · rw [disassemble, ← hcode]
    congr 1
    rw [hbuffer, ← hheader, List.drop_left]
  · rw [hlength]
    exact valuesOf_of_assignsValues hlines (assignsValues_of_defines hdefines hresolved) hother
      haligned (by omega)

/-- A text whose only section declares a global, gives it a text over and over, and ends with a
label. -/
def refrainText : String :=
  "@begin function spark\n__globals:\nspark:\nglobal g str false\n" ++
    "1:\nstring \"a\\n\"\nassign g\ngoto 1\nunreachable:\n"

def refrainItems : List Item :=
  [.label "__globals", .label "spark", .byte 0, .constant "$g" 0, .quad 0, .byte 3, .byte 0,
    .label "spark.1", .byte 7, .quad 2, .bytes [97, 10, 0], .byte 2, .reference "$g",
    .byte 8, .reference "spark.1", .label "unreachable"]

theorem disassemble_linked_refrain : ∃ items o, encode refrainText = .ok items ∧
    (linkInto items).run.run {} = (.ok (), o) ∧ o.buffer.length < 2 ^ 64 ∧
    ∃ lines symbols code, readText? refrainText = some lines ∧ disassemble o.buffer = some code ∧
      (operationsOf lines).mapM (SymbolicOperation.value? symbols) = some (code.map Prod.snd) ∧
      ValuesOf lines (code.map Prod.fst ++ [o.buffer.length]) symbols := by
  have hencode : encode refrainText = .ok refrainItems :=
    Fallible.toOption_eq_some.1 (by decide +kernel)
  obtain ⟨o, hlink, hsize⟩ : ∃ o, (linkInto refrainItems).run.run {} = (.ok (), o) ∧
      o.buffer.length < 2 ^ 64 := ⟨_, by cbv, by decide⟩
  exact ⟨refrainItems, o, hencode, hlink, hsize, disassemble_linked hencode hlink hsize⟩

end Firestorm.Bytecode
