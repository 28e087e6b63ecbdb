import Firestorm.Proofs.Bytecode.Encoding

/-!
# The lines of bytecode text

A text of bytecode is a list of lines: lines that open and close sections, labels and instructions.
This file reads a text as such a list, without any code in mind, and shows that the encoder accepts
nothing else and puts the items of the lines one behind the other.

The operands of an instruction depend on where it stands: on its section, on the variables declared
there in front of it, and on the globals declared so far. A line is therefore kept together with
these names.

## Main definitions

* `Bytecode.readInstruction?`, `Bytecode.readTextLine?`, `Bytecode.ScopedLine`,
  `Bytecode.readText?`.

## Main results

* `Bytecode.encodeLine_eq_ok`, `Bytecode.encode_eq_ok`.
-/

namespace Firestorm.Bytecode

open Fallible

variable {n : Nat}

/-! ### What a line says -/

/-- The variable that the operands of a declaration name. -/
def readBinding? (ws : List String) : Option Binding := do
  let name ← ws[0]?
  let kind ← ws[1]? >>= kindOf?
  let array ← ws[2]? >>= boolOf?
  return ⟨name, kind, array⟩

/-- The instruction with the given operation and the given text of its operands. -/
def readInstruction? (op : Opcode) (operands : List Char) : Option Instruction :=
  let first := (words operands).head?
  let plain (p : PlainOp) : Option Instruction := if operands.isEmpty then some (.plain p) else none
  match op with
  | .global => (readBinding? (words operands)).map .global
  | .variable_ => (readBinding? (words operands)).map .variable_
  | .assign => first.map (.access .assign)
  | .assignIndexed => first.map (.access .assignIndexed)
  | .load => first.map (.access .load)
  | .loadIndexed => first.map (.access .loadIndexed)
  | .increase => first.map (.access .increase)
  | .decrease => first.map (.access .decrease)
  | .number => do
    let value ← (Text.Decimal.readInt 0x7fffffffffffffff (← first).toList).toOption
    return .number (Int64.ofInt value)
  | .string => (betweenQuotes? operands).map fun cs => .string (String.ofList (unescape cs))
  | .goto => first.map (.jump .always)
  | .gotoTrue => first.map (.jump .ifTrue)
  | .gotoFalse => first.map (.jump .ifFalse)
  | .invoke => first.map .invoke
  | .invokeNative => do
    let name ← first
    if name ∈ natives then return .invokeNative name else none
  | .add => plain (.binary .add)
  | .sub => plain (.binary .sub)
  | .mul => plain (.binary .mul)
  | .div => plain (.binary .div)
  | .mod => plain (.binary .mod)
  | .and => plain (.binary .and)
  | .or => plain (.binary .or)
  | .xor => plain (.binary .xor)
  | .shiftLeft => plain (.binary .shiftLeft)
  | .shiftRight => plain (.binary .shiftRight)
  | .less => plain (.compare .less)
  | .lessEquals => plain (.compare .lessEquals)
  | .more => plain (.compare .greater)
  | .moreEquals => plain (.compare .greaterEquals)
  | .equals => plain (.compare .equals)
  | .notEquals => plain (.compare .notEquals)
  | .not => plain .not
  | .invert => plain .invert
  | .return_ => plain .return_
  | .noreturn => plain .noreturn
  | .delete => plain .delete

/-- The label or the instruction on a line. -/
def readCodeLine? (text : List Char) : Option CodeLine :=
  if text.getLast? = some ':' then some (.label (String.ofList text.dropLast))
  else do
    let op ← Opcode.ofMnemonic? (String.ofList (text.takeWhile fun c => !Text.isBlank c))
    let i ← readInstruction? op (Text.trim (text.dropWhile fun c => !Text.isBlank c))
    return .instruction i

/-- A line of the text. -/
inductive TextLine
  | blank
  | opens (sectionName : String)
  | closes
  | code (line : CodeLine)

/-- What a line without outer blanks says. -/
def readTextLine? (text : List Char) : Option TextLine :=
  if text.isEmpty then some .blank
  else
    match Text.behind? "@begin".toList text with
    | some header => (words header)[1]?.map .opens
    | none =>
      if (Text.behind? "@end".toList text).isSome then some .closes
      else (readCodeLine? text).map .code

/-! ### Where a line stands -/

/-- The section that is open, and the names declared so far. -/
structure Scope where
  names : Naming
  current : Option String

/-- A label or an instruction with the section it belongs to and the names declared in front of
it. -/
structure ScopedLine where
  names : Naming
  sectionName : String
  line : CodeLine

namespace Scope

/-- The encoder that knows as much. -/
def encoder (s : Scope) : Encoder :=
  s.names.encoder s.current

/-- What is known behind a line. Variables are forgotten when a section opens. -/
def after (s : Scope) : TextLine → Scope
  | .blank => s
  | .opens sectionName => ⟨⟨s.names.globals, []⟩, some sectionName⟩
  | .closes => ⟨s.names, none⟩
  | .code line => ⟨s.names.after line, s.current⟩

/-- The labels and instructions of a line: at most one, and none outside of a section. -/
def lines? (s : Scope) : TextLine → Option (List ScopedLine)
  | .code line => s.current.map fun sectionName => [⟨s.names, sectionName, line⟩]
  | _ => some []

end Scope

/-- The labels and instructions of lines. -/
def readLines? : Scope → List (List Char) → Option (List ScopedLine)
  | _, [] => some []
  | s, text :: rest => do
    let line ← readTextLine? (Text.trim text)
    return (← s.lines? line) ++ (← readLines? (s.after line) rest)

/-- The labels and instructions of a text. -/
def readText? (text : String) : Option (List ScopedLine) :=
  readLines? ⟨⟨[], []⟩, none⟩ (Text.lines text.toList)

/-- The items of a label or an instruction where it stands. -/
def ScopedLine.items (l : ScopedLine) : List Item :=
  l.names.lineItems l.sectionName l.line

/-- The items of lines. -/
def scopedItems (lines : List ScopedLine) : List Item :=
  lines.flatMap ScopedLine.items

@[simp] theorem scopedItems_nil : scopedItems [] = [] := rfl

@[simp] theorem scopedItems_cons (l : ScopedLine) (lines : List ScopedLine) :
    scopedItems (l :: lines) = l.items ++ scopedItems lines :=
  List.flatMap_cons

@[simp] theorem scopedItems_append (lines more : List ScopedLine) :
    scopedItems (lines ++ more) = scopedItems lines ++ scopedItems more :=
  List.flatMap_append

/-! ### What the encoder accepts -/

theorem required_eq_ok {α : Type} {x : Option α} {a : α} : required n x = .ok a ↔ x = some a := by
  cases x <;> simp [required]

theorem declaration_eq_ok {ws : List String} {name : String} {kind : Kind} {array : Bool}
    (h : Encoder.declaration n ws = .ok (name, kind, array)) :
    readBinding? ws = some ⟨name, kind, array⟩ := by
  obtain ⟨name', hname, h⟩ := except_bind_eq_ok.1 h
  obtain ⟨kind', hkind, h⟩ := except_bind_eq_ok.1 h
  obtain ⟨array', harray, h⟩ := except_bind_eq_ok.1 h
  cases h
  rw [required_eq_ok] at hname hkind harray
  simp only [readBinding?, hname, hkind, harray]
  rfl

section

variable {k : Naming} {sectionName : String} {n : Nat} {operands : List Char} {items : List Item}
  {e' : Encoder}

-- The equations are generated once, in front of the proofs that open them.
attribute [local simp] readInstruction?

/-- What the encoder has found when it accepts the operands of an operation. -/
def Accepts (k : Naming) (sectionName : String) (op : Opcode) (operands : List Char)
    (items : List Item) (e' : Encoder) : Prop :=
  ∃ i, readInstruction? op operands = some i ∧ i.opcode = op ∧
    items = k.operandItems sectionName i ∧
    e' = (k.after (.instruction i)).encoder (some sectionName)

theorem accepts_access (a : Access) {name : String} (hname : (words operands).head? = some name)
    (hitems : items = [(k.encoder (some sectionName)).variableItem name])
    (he : e' = k.encoder (some sectionName)) :
    Accepts k sectionName a.opcode operands items e' := by
  refine ⟨.access a name, ?_, rfl, ?_, he⟩
  · cases a <;> simp only [Access.opcode, readInstruction?, hname, Option.map_some]
  · rw [hitems, Naming.variableItem_encoder]
    rfl

theorem accepts_jump (j : JumpKind) {label : String} (hlabel : (words operands).head? = some label)
    (hitems : items = [.reference (sectionSymbol sectionName label)])
    (he : e' = k.encoder (some sectionName)) :
    Accepts k sectionName j.opcode operands items e' := by
  refine ⟨.jump j label, ?_, rfl, hitems, he⟩
  cases j <;> simp only [JumpKind.opcode, readInstruction?, hlabel, Option.map_some]

theorem accepts_plain (p : PlainOp) (hoperands : operands.isEmpty = true) (hitems : items = [])
    (he : e' = k.encoder (some sectionName)) :
    Accepts k sectionName p.opcode operands items e' := by
  refine ⟨.plain p, ?_, rfl, hitems, he⟩
  cases p with
  | binary op => cases op <;> exact if_pos hoperands
  | compare op => cases op <;> exact if_pos hoperands
  | _ => exact if_pos hoperands

theorem accepts_global {b : Binding} (hb : readBinding? (words operands) = some b)
    (h : (let (slot, definition, e) := (k.encoder (some sectionName)).globalSlot b.name
      (definition ++ declarationItems slot b.datatype.kind b.datatype.array, e)) = (items, e')) :
    Accepts k sectionName .global operands items e' := by
  rw [Naming.globalSlot_encoder] at h
  cases h
  exact ⟨.global b, by simp only [readInstruction?, hb, Option.map_some], rfl, rfl, rfl⟩

theorem accepts_variable {b : Binding} (hb : readBinding? (words operands) = some b)
    (h : (let (slot, e) := (k.encoder (some sectionName)).localSlot b.name
      (declarationItems slot b.datatype.kind b.datatype.array, e)) = (items, e')) :
    Accepts k sectionName .variable_ operands items e' := by
  rw [Naming.localSlot_encoder] at h
  cases h
  exact ⟨.variable_ b, by simp only [readInstruction?, hb, Option.map_some], rfl, rfl, rfl⟩

theorem accepts_of_operandItems {op : Opcode}
    (h : (k.encoder (some sectionName)).operandItems n sectionName op operands = .ok (items, e')) :
    Accepts k sectionName op operands items e' := by
  have hfirst : ∀ {f : String → List Item},
      (do return (f (← required n (words operands).head?), k.encoder (some sectionName)) :
        Except EncodeError (List Item × Encoder)) = .ok (items, e') →
      ∃ name, (words operands).head? = some name ∧ items = f name ∧
        e' = k.encoder (some sectionName) := by
    intro f h
    obtain ⟨name, hname, h⟩ := except_bind_eq_ok.1 h
    cases h
    exact ⟨name, required_eq_ok.1 hname, rfl, rfl⟩
  have access : ∀ a : Access,
      (do return ([(k.encoder (some sectionName)).variableItem
        (← required n (words operands).head?)],
        k.encoder (some sectionName)) : Except EncodeError (List Item × Encoder)) =
        .ok (items, e') →
      Accepts k sectionName a.opcode operands items e' := by
    intro a h
    obtain ⟨name, hname, hitems, he⟩ := hfirst h
    exact accepts_access a hname hitems he
  have jump : ∀ j : JumpKind,
      (do return ([.reference (sectionSymbol sectionName (← required n (words operands).head?))],
        k.encoder (some sectionName)) : Except EncodeError (List Item × Encoder)) =
        .ok (items, e') →
      Accepts k sectionName j.opcode operands items e' := by
    intro j h
    obtain ⟨label, hlabel, hitems, he⟩ := hfirst h
    exact accepts_jump j hlabel hitems he
  have plain : ∀ p : PlainOp, (if operands.isEmpty then return ([], k.encoder (some sectionName))
        else throw (.badOperand n) : Except EncodeError (List Item × Encoder)) = .ok (items, e') →
      Accepts k sectionName p.opcode operands items e' := by
    intro p h
    split at h
    · next hempty =>
      cases h
      exact accepts_plain p hempty rfl rfl
    · cases h
  cases op with
  | global =>
    obtain ⟨⟨name, kind, array⟩, hdeclaration, h⟩ := except_bind_eq_ok.1 h
    exact accepts_global (declaration_eq_ok hdeclaration) (Except.ok.inj h)
  | variable_ =>
    obtain ⟨⟨name, kind, array⟩, hdeclaration, h⟩ := except_bind_eq_ok.1 h
    exact accepts_variable (declaration_eq_ok hdeclaration) (Except.ok.inj h)
  | number =>
    obtain ⟨word, hword, h⟩ := except_bind_eq_ok.1 h
    obtain ⟨value, hvalue, h⟩ := except_bind_eq_ok.1 h
    cases h
    rw [required_eq_ok] at hword hvalue
    refine ⟨.number (Int64.ofInt value), ?_, rfl, rfl, rfl⟩
    simp only [readInstruction?, hword, Option.bind_eq_bind, Option.bind_some, hvalue]
    rfl
  | string =>
    obtain ⟨cs, hcs, h⟩ := except_bind_eq_ok.1 h
    cases h
    refine ⟨.string (String.ofList (unescape cs)), ?_, rfl, ?_, rfl⟩
    · simp only [readInstruction?, required_eq_ok.1 hcs, Option.map_some]
    · simp only [Naming.operandItems, String.toList_ofList]
  | invoke =>
    obtain ⟨callee, hcallee, hitems, he⟩ := hfirst h
    exact ⟨.invoke callee, by simp only [readInstruction?, hcallee,
      Option.map_some], rfl, hitems, he⟩
  | invokeNative =>
    obtain ⟨callee, hcallee, h⟩ := except_bind_eq_ok.1 h
    rw [required_eq_ok] at hcallee
    cases hindex : natives.idxOf? callee with
    | none =>
      rw [hindex] at h
      cases h
    | some index =>
      rw [hindex] at h
      cases h
      have hmem : callee ∈ natives := List.isSome_idxOf?.1 (by rw [hindex]; rfl)
      refine ⟨.invokeNative callee, ?_, rfl, ?_, rfl⟩
      · simp only [readInstruction?, hcallee, Option.bind_eq_bind, Option.bind_some, if_pos hmem]
        rfl
      · rw [idxOf?_of_mem hmem] at hindex
        cases hindex
        rfl
  | assign => exact access .assign h
  | assignIndexed => exact access .assignIndexed h
  | load => exact access .load h
  | loadIndexed => exact access .loadIndexed h
  | increase => exact access .increase h
  | decrease => exact access .decrease h
  | goto => exact jump .always h
  | gotoTrue => exact jump .ifTrue h
  | gotoFalse => exact jump .ifFalse h
  | add => exact plain (.binary .add) h
  | sub => exact plain (.binary .sub) h
  | mul => exact plain (.binary .mul) h
  | div => exact plain (.binary .div) h
  | mod => exact plain (.binary .mod) h
  | and => exact plain (.binary .and) h
  | or => exact plain (.binary .or) h
  | xor => exact plain (.binary .xor) h
  | shiftLeft => exact plain (.binary .shiftLeft) h
  | shiftRight => exact plain (.binary .shiftRight) h
  | less => exact plain (.compare .less) h
  | lessEquals => exact plain (.compare .lessEquals) h
  | more => exact plain (.compare .greater) h
  | moreEquals => exact plain (.compare .greaterEquals) h
  | equals => exact plain (.compare .equals) h
  | notEquals => exact plain (.compare .notEquals) h
  | not => exact plain .not h
  | invert => exact plain .invert h
  | return_ => exact plain .return_ h
  | noreturn => exact plain .noreturn h
  | delete => exact plain .delete h

theorem instructionItems_eq_ok {text : List Char} (hlabel : text.getLast? ≠ some ':')
    (h : (k.encoder (some sectionName)).instructionItems n sectionName text = .ok (items, e')) :
    ∃ i, readCodeLine? text = some (.instruction i) ∧
      items = k.lineItems sectionName (.instruction i) ∧
      e' = (k.after (.instruction i)).encoder (some sectionName) := by
  unfold Encoder.instructionItems at h
  unfold readCodeLine?
  rw [if_neg hlabel]
  cases hop : Opcode.ofMnemonic? (String.ofList (text.takeWhile fun c => !Text.isBlank c)) with
  | none =>
    simp only [hop] at h
    cases h
  | some op =>
    simp only [hop] at h
    obtain ⟨⟨items', e''⟩, hitems, h⟩ := except_bind_eq_ok.1 h
    cases h
    obtain ⟨i, hread, rfl, rfl, rfl⟩ := accepts_of_operandItems hitems
    refine ⟨i, ?_, rfl, rfl⟩
    simp only [Option.bind_eq_bind, Option.bind_some, hread]
    rfl

end

/-- The encoder accepts a line only if it says something, and finds its items. -/
theorem encodeLine_eq_ok {s : Scope} {text : List Char} {items : List Item} {e' : Encoder}
    (h : encodeLine s.encoder n text = .ok (items, e')) :
    ∃ line lines, readTextLine? text = some line ∧ s.lines? line = some lines ∧
      items = scopedItems lines ∧ e' = (s.after line).encoder := by
  obtain ⟨k, current⟩ := s
  unfold encodeLine at h
  unfold readTextLine?
  by_cases hempty : text.isEmpty = true
  · rw [if_pos hempty] at h ⊢
    cases h
    exact ⟨.blank, [], rfl, rfl, rfl, rfl⟩
  rw [if_neg hempty] at h ⊢
  cases hbegin : Text.behind? "@begin".toList text with
  | some header =>
    simp only [hbegin] at h
    obtain ⟨name, hname, h⟩ := except_bind_eq_ok.1 h
    cases h
    exact ⟨.opens name, [], congrArg (Option.map _) (required_eq_ok.1 hname), rfl, rfl, rfl⟩
  | none =>
    simp only [hbegin] at h ⊢
    by_cases hend : (Text.behind? "@end".toList text).isSome = true
    · rw [if_pos hend] at h ⊢
      cases h
      exact ⟨.closes, [], rfl, rfl, rfl, rfl⟩
    rw [if_neg hend] at h ⊢
    cases current with
    | none => cases h
    | some sectionName =>
      change (if text.getLast? = some ':' then _ else _) = _ at h
      by_cases hlabel : text.getLast? = some ':'
      · rw [if_pos hlabel] at h
        cases h
        refine ⟨.code (.label (String.ofList text.dropLast)), _, ?_, rfl, ?_, rfl⟩
        · rw [readCodeLine?, if_pos hlabel]
          rfl
        · simp only [scopedItems_cons, scopedItems_nil, List.append_nil, ScopedLine.items,
            Naming.lineItems, String.toList_ofList]
      · rw [if_neg hlabel] at h
        obtain ⟨i, hread, rfl, rfl⟩ := instructionItems_eq_ok hlabel h
        refine ⟨.code (.instruction i), _, ?_, rfl, ?_, rfl⟩
        · rw [hread]
          rfl
        · exact (List.append_nil _).symm

theorem encodeLines_eq_ok {s : Scope} {texts : List (List Char)} {items : List Item}
    (h : encodeLines s.encoder n texts = .ok items) :
    ∃ lines, readLines? s texts = some lines ∧ items = scopedItems lines := by
  induction texts generalizing s n items with
  | nil =>
    cases h
    exact ⟨[], rfl, rfl⟩
  | cons text texts ih =>
    obtain ⟨⟨first, e⟩, hfirst, h⟩ := except_bind_eq_ok.1 h
    obtain ⟨rest, hrest, h⟩ := except_bind_eq_ok.1 h
    cases h
    obtain ⟨line, lines, hline, hlines, rfl, rfl⟩ := encodeLine_eq_ok hfirst
    obtain ⟨others, hothers, rfl⟩ := ih hrest
    refine ⟨lines ++ others, ?_, (scopedItems_append lines others).symm⟩
    simp only [readLines?, hline, hlines, hothers, Option.bind_eq_bind, Option.bind_some]
    rfl

/-- The items of an accepted text are those of its labels and instructions. -/
theorem encode_eq_ok {text : String} {items : List Item} (h : encode text = .ok items) :
    ∃ lines, readText? text = some lines ∧ items = scopedItems lines :=
  encodeLines_eq_ok (s := ⟨⟨[], []⟩, none⟩) h

end Firestorm.Bytecode
