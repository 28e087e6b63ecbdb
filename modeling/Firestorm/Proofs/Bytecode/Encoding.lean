import Firestorm.Proofs.Bytecode.Items
import Firestorm.Proofs.Fallible
import Firestorm.Proofs.Program.Words
import Firestorm.Proofs.Text.Reading

/-!
# The encoding of bytecode

The encoder reads the text of sections line by line. This file proves that it finds the items of the
sections in their text, provided that the names of the sections are words. The only way to fail is a
native function that the machine does not provide.

## Main definitions

* `Bytecode.Readable`, `Bytecode.Known`.

## Main results

* `Bytecode.encode_renderAll`, `Bytecode.encode_renderAll_unknown`.
-/

namespace Firestorm.Bytecode

open Fallible

variable {cs : List Char} {name sectionName operands : String} {e : Encoder} {c : Char}
  {b : Binding} {i : Instruction} {sections : List Section}

/-! ### Lines of the text -/

/-- A line whose names are words and whose labels are numbers. -/
def Readable : CodeLine → Prop
  | .label name => ∃ n : Nat, name = toString n
  | .instruction i =>
    match i with
    | .global b | .variable_ b => IsWord b.name
    | .access _ name | .invoke name | .invokeNative name => IsWord name
    | .jump _ label => ∃ n : Nat, label = toString n
    | .number _ | .string _ | .plain _ => True

/-- A text on one line that neither starts nor ends with a blank and does not end with a colon. -/
structure Compact (cs : List Char) : Prop where
  ne_nil : cs ≠ []
  head : ∀ c ∈ cs.head?, Text.isBlank c = false
  last : ∀ c ∈ cs.getLast?, Text.isBlank c = false ∧ c ≠ ':'
  newline : '\n' ∉ cs

theorem getLast?_append_of_ne_nil {α : Type} (xs : List α) {ys : List α} (h : ys ≠ []) :
    (xs ++ ys).getLast? = ys.getLast? := by
  cases hlast : ys.getLast? with
  | none => exact absurd (List.getLast?_eq_none_iff.1 hlast) h
  | some y => rw [List.getLast?_append, hlast, Option.some_or]

/-- Compact texts with a space between them. -/
theorem Compact.append_space {ds : List Char} (hcs : Compact cs) (hds : Compact ds) :
    Compact (cs ++ ' ' :: ds) where
  ne_nil := by simp
  head := by
    rw [List.head?_append_of_ne_nil _ hcs.ne_nil]
    exact hcs.head
  last := by
    rw [List.append_cons, getLast?_append_of_ne_nil _ hds.ne_nil]
    exact hds.last
  newline := by
    simp only [List.mem_append, List.mem_cons, not_or]
    exact ⟨hcs.newline, by decide, hds.newline⟩

/-- A text without blanks and colons. -/
structure Solid (cs : List Char) : Prop where
  ne_nil : cs ≠ []
  chars : ∀ c ∈ cs, Text.isBlank c = false ∧ c ≠ ':'

theorem Solid.compact (h : Solid cs) : Compact cs :=
  ⟨h.ne_nil, fun c hc => (h.chars c (List.mem_of_mem_head? hc)).1,
    fun c hc => h.chars c (List.mem_of_getLast? hc), fun hc => absurd (h.chars _ hc).1 (by decide)⟩

theorem solid_of_isWordPart (hne : cs ≠ []) (h : ∀ c ∈ cs, Lexer.isWordPart c = true) : Solid cs :=
  ⟨hne, fun c hc => ⟨isBlank_of_isWordPart (h c hc), ne_of_isWordPart (h c hc) rfl⟩⟩

theorem solid_of_isWord (h : IsWord name) : Solid name.toList :=
  solid_of_isWordPart h.ne_nil h.isWordPart

theorem isWord_mnemonic (op : Opcode) : IsWord op.mnemonic := by
  cases op <;> decide

/-- A line that starts like a name and does not end with a blank. -/
theorem encodeLine_of_isWordPart (he : e.current = some sectionName) (n : Nat)
    (hc : Lexer.isWordPart c = true) (hlast : ∀ d ∈ (c :: cs).getLast?, Text.isBlank d = false) :
    encodeLine e n (Text.trim (c :: cs)) =
      if (c :: cs).getLast? = some ':'
      then .ok ([.label (labelSymbol sectionName (c :: cs).dropLast)], e)
      else e.instructionItems n sectionName (c :: cs) := by
  have htrim : Text.trim (c :: cs) = c :: cs := by
    refine Text.trim_of_nonblank ?_ hlast
    rintro d ⟨⟩
    exact isBlank_of_isWordPart hc
  have hat : ∀ rest, Text.behind? ('@' :: rest) (c :: cs) = none := by
    intro rest
    rw [Text.behind?, if_neg (ne_of_isWordPart hc rfl).symm]
  rw [htrim, encodeLine, if_neg (by simp),
    show "@begin".toList = '@' :: "begin".toList from rfl, hat,
      show "@end".toList = '@' :: "end".toList from rfl, hat, he]
  simp only [Option.isSome_none, Bool.false_eq_true, if_false]

/-- An instruction behind a tab, with a part of its own for the operands, or without operands. -/
theorem encodeLine_instruction (he : e.current = some sectionName) (n : Nat) (op : Opcode)
    {blanks operands : List Char} (hblanks : ∀ b ∈ blanks, Text.isBlank b = true)
    (hne : blanks = [] ↔ operands = []) (hhead : ∀ c ∈ operands.head?, Text.isBlank c = false)
    (hend : ∀ c ∈ operands.getLast?, Text.isBlank c = false ∧ c ≠ ':') :
    encodeLine e n (Text.trim ('\t' :: (op.mnemonic.toList ++ (blanks ++ operands)))) =
      (e.operandItems n sectionName op operands).map fun r => (.byte op.byte :: r.1, r.2) := by
  have hm := solid_of_isWord (isWord_mnemonic op)
  have hnonblank : ∀ c ∈ op.mnemonic.toList, (!Text.isBlank c) = true := fun c hc => by
    simp [(hm.chars c hc).1]
  -- The line starts with the mnemonic and ends with it or with the operands.
  have hlast : ∀ d ∈ (op.mnemonic.toList ++ (blanks ++ operands)).getLast?,
      Text.isBlank d = false ∧ d ≠ ':' := by
    by_cases hnil : operands = []
    · rw [hne.2 hnil, hnil, List.append_nil, List.append_nil]
      exact hm.compact.last
    · rw [getLast?_append_of_ne_nil _ (by simp [hnil]), getLast?_append_of_ne_nil _ hnil]
      exact hend
  have hline : encodeLine e n (Text.trim (op.mnemonic.toList ++ (blanks ++ operands))) =
      e.instructionItems n sectionName (op.mnemonic.toList ++ (blanks ++ operands)) := by
    obtain ⟨c, cs, hcons⟩ := List.exists_cons_of_ne_nil hm.ne_nil
    have hc := (isWord_mnemonic op).isWordPart c (hcons ▸ List.mem_cons_self ..)
    rw [hcons, List.cons_append] at hlast ⊢
    have hcolon : (c :: (cs ++ (blanks ++ operands))).getLast? ≠ some ':' :=
      fun h => (hlast ':' h).2 rfl
    rw [encodeLine_of_isWordPart he n hc fun d hd => (hlast d hd).1, if_neg hcolon]
  have htake : (blanks ++ operands).takeWhile (fun c => !Text.isBlank c) = [] := by
    cases blanks with
    | nil => rw [hne.1 rfl]; rfl
    | cons b bs => exact List.takeWhile_cons_of_neg (by simp [hblanks b (List.mem_cons_self ..)])
  have hdrop : (blanks ++ operands).dropWhile (fun c => !Text.isBlank c) = blanks ++ operands := by
    cases blanks with
    | nil => rw [hne.1 rfl]; rfl
    | cons b bs => exact List.dropWhile_cons_of_neg (by simp [hblanks b (List.mem_cons_self ..)])
  have hoperands' : Text.trim (blanks ++ operands) = operands := by
    rw [Text.trim_append_of_blank hblanks,
      Text.trim_of_nonblank hhead fun d hd => (hend d hd).1]
  rw [Text.trim_cons_of_blank rfl, hline, Encoder.instructionItems,
    List.takeWhile_append_of_pos hnonblank, htake, List.dropWhile_append_of_pos hnonblank, hdrop,
    hoperands', List.append_nil, String.ofList_toList, Opcode.ofMnemonic?_mnemonic]
  dsimp only
  cases e.operandItems n sectionName op operands <;> rfl

/-! ### Operands of the text -/

theorem words_of_solid (h : Solid name.toList) : words name.toList = [name] := by
  rw [words_singleton (fun c hc => (h.chars c hc).1) h.ne_nil, String.ofList_toList]

theorem words_append_of_solid (h : Solid name.toList) (rest : List Char) :
    words (name.toList ++ ' ' :: rest) = name :: words rest := by
  rw [words_append_blank (fun c hc => (h.chars c hc).1) h.ne_nil rfl, String.ofList_toList]

theorem isDigit_of_mem_toString {n : Nat} (h : c ∈ (toString n).toList) : c.isDigit = true := by
  rw [Text.Decimal.toList_toString] at h
  exact Nat.isDigit_of_mem_toDigits (by omega) (by omega) h

theorem isWordPart_toString {n : Nat} : ∀ c ∈ (toString n).toList, Lexer.isWordPart c = true := by
  intro c hc
  simp [Lexer.isWordPart, Char.isAlphanum, isDigit_of_mem_toString hc]

theorem solid_toString_nat (n : Nat) : Solid (toString n).toList := by
  refine solid_of_isWordPart ?_ isWordPart_toString
  rw [Text.Decimal.toList_toString]
  exact Nat.toDigits_ne_nil

theorem solid_toString_int (i : Int) : Solid (toString i).toList := by
  rw [Int.toString_eq_repr, Int.repr_eq_if]
  split
  · exact solid_toString_nat _
  · rw [← Nat.toString_eq_repr, String.toList_append]
    refine ⟨by simp, fun c hc => ?_⟩
    rcases List.mem_append.1 hc with hc | hc
    · obtain rfl : c = '-' := by simpa using hc
      decide
    · exact (solid_toString_nat _).chars c hc

theorem unescape_escapeChar (c : Char) (cs : List Char) :
    unescape (escapeChar c ++ cs) = c :: unescape cs := by
  unfold escapeChar
  split
  · next h => rw [h]; rfl
  · split
    · next h => rw [h]; rfl
    · next h _ =>
      rw [List.singleton_append, unescape]
      all_goals
        intros
        contradiction

/-- A string is read back from its escaped form. -/
theorem unescape_flatMap_escapeChar (cs : List Char) : unescape (cs.flatMap escapeChar) = cs := by
  induction cs with
  | nil => rfl
  | cons c cs ih => rw [List.flatMap_cons, unescape_escapeChar, ih]

theorem betweenQuotes?_quoted (cs : List Char) :
    betweenQuotes? ('"' :: (cs ++ ['"'])) = some cs := by
  simp [betweenQuotes?]

theorem toList_quoted (content : String) : (s!"\"{escape content}\"").toList =
    '"' :: (content.toList.flatMap escapeChar ++ ['"']) := by
  simp only [String.toList_append, escape, toString, String.toList_ofList]
  rfl

theorem newline_notMem_escapeChar (c : Char) : '\n' ∉ escapeChar c := by
  unfold escapeChar
  split
  · decide
  · split
    · decide
    · next h => simpa using Ne.symm h

theorem compact_quoted (content : String) : Compact (s!"\"{escape content}\"").toList := by
  rw [toList_quoted]
  refine ⟨by simp, ?_, fun c hc => ?_, ?_⟩
  · rintro c ⟨⟩
    decide
  · rw [← List.cons_append, getLast?_append_of_ne_nil _ (by simp)] at hc
    obtain rfl := Option.some.inj hc
    decide
  · simp only [List.mem_cons, List.mem_append, List.mem_flatMap, not_or, not_exists, not_and]
    exact ⟨by decide, fun c _ => newline_notMem_escapeChar c, by decide⟩

theorem kindOf?_spelling (kind : Kind) : kindOf? kind.spelling = some kind := by
  cases kind <;> decide

theorem boolOf?_boolWord (b : Bool) : boolOf? (boolWord b) = some b := by
  cases b <;> decide

theorem bindingOperands_toList (b : Binding) : (bindingOperands b).toList =
    b.name.toList ++ ' ' :: (b.datatype.kind.spelling.toList ++ ' ' ::
      (boolWord b.datatype.array).toList) := by
  simp only [bindingOperands, String.toList_append, List.append_assoc]
  rfl

theorem isWord_kind (kind : Kind) : IsWord kind.spelling := by
  cases kind <;> decide

theorem isWord_sectionKind (kind : SectionKind) : IsWord kind.spelling := by
  cases kind <;> decide

theorem isWord_boolWord (b : Bool) : IsWord (boolWord b) := by
  cases b <;> decide

theorem declaration_bindingOperands (n : Nat) (h : IsWord b.name) :
    Encoder.declaration n (words (bindingOperands b).toList) =
      .ok (b.name, b.datatype.kind, b.datatype.array) := by
  rw [bindingOperands_toList, words_append_of_solid (solid_of_isWord h),
    words_append_of_solid (solid_of_isWord (isWord_kind _)),
    words_of_solid (solid_of_isWord (isWord_boolWord _))]
  simp only [Encoder.declaration, List.getElem?_cons_zero, List.getElem?_cons_succ,
    Option.bind_eq_bind, Option.bind_some, kindOf?_spelling, boolOf?_boolWord, required]
  rfl

theorem compact_bindingOperands (h : IsWord b.name) : Compact (bindingOperands b).toList := by
  rw [bindingOperands_toList]
  exact (solid_of_isWord h).compact.append_space
    ((solid_of_isWord (isWord_kind _)).compact.append_space
      (solid_of_isWord (isWord_boolWord _)).compact)

/-- The operands of a readable instruction. -/
theorem compact_operands (hi : Readable (.instruction i)) (h : i.operands = some operands) :
    Compact operands.toList := by
  cases i with
  | global b | variable_ b =>
    cases h
    exact compact_bindingOperands hi
  | access _ name | invoke name | invokeNative name =>
    cases h
    exact (solid_of_isWord hi).compact
  | number value =>
    cases h
    exact (solid_toString_int _).compact
  | string content =>
    cases h
    exact compact_quoted content
  | jump kind label =>
    cases h
    obtain ⟨n, rfl⟩ := hi
    exact (solid_toString_nat n).compact
  | plain op => cases h

/-! ### Encoded lines -/

namespace Naming

variable {k : Naming} {sectionName : String}

theorem globalSlot_encoder (name : String) : (k.encoder (some sectionName)).globalSlot name =
    ((insertName k.globals name).idxOf name,
      if name ∈ k.globals then [] else [.constant (globalSymbol name) k.globals.length.toUInt64],
      Naming.encoder { k with globals := insertName k.globals name } (some sectionName)) := by
  simp only [Encoder.globalSlot, encoder, get?_numbering, Nat.zero_add, names_numbering]
  unfold insertName
  by_cases h : name ∈ k.globals
  · simp only [h, if_true]
  · simp only [h, if_false]
    have hset := set_numbering 0 h
    rw [Nat.zero_add] at hset
    rw [hset, List.idxOf_append_of_notMem h]
    simp

theorem localSlot_encoder (name : String) : (k.encoder (some sectionName)).localSlot name =
    (localSlotBase + (insertName k.locals name).idxOf name,
      Naming.encoder { k with locals := insertName k.locals name } (some sectionName)) := by
  simp only [Encoder.localSlot, encoder, get?_numbering, names_numbering]
  unfold insertName
  by_cases h : name ∈ k.locals
  · simp only [h, if_true]
  · simp only [h, if_false]
    rw [set_numbering _ h, List.idxOf_append_of_notMem h]
    simp

theorem variableItem_encoder (name : String) : (k.encoder (some sectionName)).variableItem name =
    if name ∈ k.locals then .quad (Int64.ofNat (localSlotBase + k.locals.idxOf name))
      else .reference (globalSymbol name) := by
  simp only [Encoder.variableItem, encoder, get?_numbering]
  by_cases h : name ∈ k.locals
  · simp only [h, if_true]
  · simp only [h, if_false]

end Naming

theorem toList_render_of_operands (hi : i.operands = some operands) :
    i.render.toList = '\t' :: (i.opcode.mnemonic.toList ++
      ((List.replicate (7 - i.opcode.mnemonic.length) ' ' ++ [' ']) ++ operands.toList)) := by
  rw [Instruction.render, hi, Text.instructionLine]
  simp only [String.toList_append, Text.padded, Text.spaces, toString, String.toList_ofList,
    List.append_assoc, List.cons_append, List.nil_append]
  rfl

theorem toList_render_plain (op : PlainOp) :
    (Instruction.plain op).render.toList = '\t' :: op.opcode.mnemonic.toList := by
  rw [Instruction.render, Instruction.operands, Text.instructionLine, String.toList_append]
  rfl

section

variable {e : Encoder} {sectionName : String} (he : e.current = some sectionName) (n : Nat)
include he

/-- The line of an instruction with operands. -/
theorem encodeLine_operands (hi : i.operands = some operands) (hcompact : Compact operands.toList) :
    encodeLine e n (Text.trim i.render.toList) =
      (e.operandItems n sectionName i.opcode operands.toList).map fun r =>
        (.byte i.opcode.byte :: r.1, r.2) := by
  rw [toList_render_of_operands hi, encodeLine_instruction he n _ _ (by simp [hcompact.ne_nil])
    hcompact.head hcompact.last]
  intro b hb
  rcases List.mem_append.1 hb with hb | hb
  · rw [List.eq_of_mem_replicate hb]
    rfl
  · rw [List.mem_singleton.1 hb]
    rfl

/-- The line of an instruction without operands. -/
theorem encodeLine_plain (op : PlainOp) :
    encodeLine e n (Text.trim (Instruction.plain op).render.toList) =
      .ok ([.byte op.opcode.byte], e) := by
  have htext : (Instruction.plain op).render.toList =
      '\t' :: (op.opcode.mnemonic.toList ++ ([] ++ [])) := by
    rw [toList_render_plain, List.append_nil, List.append_nil]
  have hitems : e.operandItems n sectionName op.opcode [] = .ok ([], e) := by
    cases op with
    | binary op => cases op <;> rfl
    | compare op => cases op <;> rfl
    | _ => rfl
  rw [htext, encodeLine_instruction he n _ (by simp) Iff.rfl (by simp) (by simp), hitems]
  rfl

end

/-- A line that places a label. -/
theorem encodeLine_colon (he : e.current = some sectionName) (n : Nat) (hne : name.toList ≠ [])
    (hname : ∀ c ∈ name.toList, Lexer.isWordPart c = true) :
    encodeLine e n (Text.trim (name ++ ":").toList) =
      .ok ([.label (labelSymbol sectionName name.toList)], e) := by
  have htext : (name ++ ":").toList = name.toList ++ [':'] := String.toList_append
  have hlast : (name.toList ++ [':']).getLast? = some ':' := List.getLast?_concat
  have hlabel : (name.toList ++ [':']).dropLast = name.toList := List.dropLast_concat
  obtain ⟨c, cs, hcons⟩ := List.exists_cons_of_ne_nil hne
  have hc : Lexer.isWordPart c = true := hname c (hcons ▸ List.mem_cons_self ..)
  rw [htext]
  rw [hcons, List.cons_append] at hlast hlabel ⊢
  rw [encodeLine_of_isWordPart he n hc, if_pos hlast, hlabel]
  rw [hlast]
  rintro d ⟨⟩
  decide

theorem labelSymbol_of_isWord (sectionName : String) (h : IsWord name) :
    labelSymbol sectionName name.toList = name := by
  obtain ⟨c, cs, hcons, hc, -⟩ := h
  have hc' := toNat_of_isWordStart hc
  have hdigit : c.isDigit = false := by
    rw [Bool.eq_false_iff]
    intro hd
    have := toNat_of_isDigit hd
    omega
  have hread : ∃ defect, Text.Decimal.readNat 0xffffffff name.toList = .error defect := by
    rw [hcons]
    unfold Text.Decimal.readNat
    split
    · exact ⟨_, rfl⟩
    · next h =>
      cases h
      simp at hc'
    · refine ⟨.invalidDigit, ?_⟩
      simp [Text.Decimal.digits, Text.Decimal.digitsFrom, hdigit]
  obtain ⟨defect, hread⟩ := hread
  rw [labelSymbol, hread]
  exact String.ofList_toList

theorem labelSymbol_toString (sectionName : String) (n : Nat) :
    labelSymbol sectionName (toString n).toList =
      if n ≤ 0xffffffff then sectionSymbol sectionName (toString n) else toString n := by
  rw [labelSymbol, Text.Decimal.readNat_toString]
  by_cases h : n ≤ 0xffffffff
  · rw [if_pos h, if_pos h]
  · rw [if_neg h, if_neg h]
    exact String.ofList_toList

theorem idxOf?_of_mem {names : List String} (h : name ∈ names) :
    names.idxOf? name = some (names.idxOf name) := by
  obtain ⟨i, hi⟩ := Option.isSome_iff_exists.1 (List.isSome_idxOf?.2 h)
  have hidx : names.idxOf name = i := by grind
  rw [hi, hidx]

/-- A native function that a line calls is one that the machine provides. -/
def Known (line : CodeLine) : Prop :=
  ∀ callee, line = .instruction (.invokeNative callee) → callee ∈ natives

namespace Naming

variable {k : Naming} {sectionName : String} (n : Nat)
variable {callee : String}

/-- The encoder finds the items of an instruction in its operands. -/
theorem operandItems_render (hi : Readable (.instruction i)) (hknown : Known (.instruction i))
    (h : i.operands = some operands) :
    ((k.encoder (some sectionName)).operandItems n sectionName i.opcode operands.toList).map
        (fun r => (.byte i.opcode.byte :: r.1, r.2)) =
      .ok (k.lineItems sectionName (.instruction i),
        (k.after (.instruction i)).encoder (some sectionName)) := by
  unfold Encoder.operandItems
  cases i with
  | global b =>
    cases h
    simp only [Instruction.opcode, declaration_bindingOperands n hi, globalSlot_encoder]
    rfl
  | variable_ b =>
    cases h
    simp only [Instruction.opcode, declaration_bindingOperands n hi, localSlot_encoder]
    rfl
  | access a name =>
    cases h
    cases a <;>
      simp only [Instruction.opcode, Access.opcode, words_of_solid (solid_of_isWord hi),
        variableItem_encoder, List.head?_cons, required] <;> rfl
  | number value =>
    cases h
    have hread : Text.Decimal.readInt 0x7fffffffffffffff (toString value.toInt).toList =
        .ok value.toInt :=
      Text.Decimal.readInt_toString (by have := value.le_toInt; omega)
        (by have := value.toInt_lt; omega)
    simp only [Instruction.opcode, words_of_solid (solid_toString_int _),
      List.head?_cons, required, ok_bind, hread, Except.toOption, Int64.ofInt_toInt]
    rfl
  | string content =>
    cases h
    rw [toList_quoted]
    simp only [Instruction.opcode, betweenQuotes?_quoted, required, ok_bind,
      unescape_flatMap_escapeChar]
    rfl
  | jump kind label =>
    cases h
    obtain ⟨label, rfl⟩ := hi
    cases kind <;>
      simp only [Instruction.opcode, JumpKind.opcode, words_of_solid (solid_toString_nat _),
        List.head?_cons, required] <;> rfl
  | invoke callee =>
    cases h
    simp only [Instruction.opcode, words_of_solid (solid_of_isWord hi), List.head?_cons, required]
    rfl
  | invokeNative callee =>
    cases h
    simp only [Instruction.opcode, words_of_solid (solid_of_isWord hi), List.head?_cons, required,
      ok_bind, idxOf?_of_mem (hknown _ rfl)]
    rfl
  | plain op => cases h

theorem encodeLine_unknownNative (h : IsWord callee) (hnative : callee ∉ natives) :
    encodeLine (k.encoder (some sectionName)) n
        (Text.trim (Instruction.invokeNative callee).render.toList) =
      .error (.unknownNative n callee) := by
  rw [encodeLine_operands rfl n rfl (solid_of_isWord h).compact]
  unfold Encoder.operandItems
  simp only [Instruction.opcode, words_of_solid (solid_of_isWord h), List.head?_cons, required,
    ok_bind, List.idxOf?_eq_none_iff.2 hnative]
  rfl

/-- The encoder finds the items of a line in its text. -/
theorem encodeLine_render {line : CodeLine} (hline : Readable line) (hknown : Known line) :
    encodeLine (k.encoder (some sectionName)) n (Text.trim line.render.toList) =
      .ok (k.lineItems sectionName line, (k.after line).encoder (some sectionName)) := by
  cases line with
  | label name =>
    obtain ⟨label, rfl⟩ := hline
    exact encodeLine_colon rfl n (solid_toString_nat label).ne_nil isWordPart_toString
  | instruction i =>
    cases h : i.operands with
    | some operands =>
      exact (encodeLine_operands rfl n h (compact_operands hline h)).trans
        (operandItems_render n hline hknown h)
    | none =>
      cases i with
      | plain op => exact encodeLine_plain rfl n op
      | _ => cases h

end Naming

/-! ### Encoded sections -/

/-- The texts of code, line by line. -/
def codeTexts (code : List CodeLine) : List (List Char) :=
  code.map fun line => line.render.toList

theorem encodeLines_cons {e' : Encoder} {n : Nat} {text : List Char} {items : List Item}
    (h : encodeLine e n (Text.trim text) = .ok (items, e')) (rest : List (List Char)) :
    encodeLines e n (text :: rest) = (encodeLines e' (n + 1) rest).map (items ++ ·) := by
  rw [encodeLines, h, ok_bind]
  dsimp only
  cases encodeLines e' (n + 1) rest <;> rfl

theorem map_map_append {x : Except EncodeError (List Item)} (items more : List Item) :
    (x.map (more ++ ·)).map (items ++ ·) = x.map (items ++ more ++ ·) := by
  cases x with
  | error e => rfl
  | ok a => simp [Except.map]

/-- Code is encoded line by line, up to a native function that is not known. -/
theorem encodeLines_code {k : Naming} {code : List CodeLine} (hcode : ∀ line ∈ code, Readable line)
    (n : Nat) (rest : List (List Char)) : ((∀ line ∈ code, Known line) ∧
      encodeLines (k.encoder (some sectionName)) n (codeTexts code ++ rest) =
        (encodeLines ((k.through code).encoder (some sectionName)) (n + code.length) rest).map
          (k.codeItems sectionName code ++ ·)) ∨
    ∃ m callee, encodeLines (k.encoder (some sectionName)) n (codeTexts code ++ rest) =
        .error (.unknownNative m callee) ∧
      .instruction (.invokeNative callee) ∈ code ∧ callee ∉ natives := by
  induction code generalizing k n with
  | nil =>
    refine .inl ⟨by simp, ?_⟩
    simp only [codeTexts, List.map_nil, List.nil_append, Naming.through, List.foldl_nil,
      List.length_nil, Nat.add_zero, Naming.codeItems]
    cases encodeLines (k.encoder (some sectionName)) n rest <;> rfl
  | cons line code ih =>
    obtain ⟨hline, hcode⟩ := List.forall_mem_cons.1 hcode
    by_cases hknown : Known line
    · have hfirst : encodeLines (k.encoder (some sectionName)) n
          (line.render.toList :: (codeTexts code ++ rest)) = _ :=
        encodeLines_cons (Naming.encodeLine_render n hline hknown) _
      rcases ih (k := k.after line) hcode (n + 1)
        with ⟨hall, hcode⟩ | ⟨m, callee, herror, hmem, hnative⟩
      · refine .inl ⟨List.forall_mem_cons.2 ⟨hknown, hall⟩, hfirst.trans ?_⟩
        rw [hcode, map_map_append, List.length_cons, Nat.add_right_comm, Nat.add_assoc]
        rfl
      · refine .inr ⟨m, callee, hfirst.trans ?_, List.mem_cons_of_mem _ hmem, hnative⟩
        rw [herror]
        rfl
    · simp only [Known, not_forall] at hknown
      obtain ⟨callee, rfl, hnative⟩ := hknown
      refine .inr ⟨n, callee, ?_, List.mem_cons_self .., hnative⟩
      exact congrArg (fun x => x >>= _) (Naming.encodeLine_unknownNative n hline hnative)

/-- The lines that open and close a section. -/
theorem encodeLine_begin (e : Encoder) (n : Nat) (kind : SectionKind) (h : IsWord name) :
    encodeLine e n (Text.trim (s!"@begin {kind.spelling} {name}").toList) =
      .ok ([], { e with current := some name, locals := ∅ }) := by
  have htext : (s!"@begin {kind.spelling} {name}").toList =
      "@begin".toList ++ ' ' :: (kind.spelling.toList ++ ' ' :: name.toList) := by
    simp only [String.toList_append, List.append_assoc]
    rfl
  have hkind := solid_of_isWord (isWord_sectionKind kind)
  have hcompact := hkind.compact.append_space (solid_of_isWord h).compact
  have htrim : Text.trim ("@begin".toList ++ ' ' :: (kind.spelling.toList ++ ' ' :: name.toList)) =
      "@begin".toList ++ ' ' :: (kind.spelling.toList ++ ' ' :: name.toList) := by
    refine Text.trim_of_nonblank (by rintro c ⟨⟩; decide) fun c hc => (hcompact.last c ?_).1
    rwa [List.append_cons, getLast?_append_of_ne_nil _ hcompact.ne_nil] at hc
  rw [htext, htrim, encodeLine, if_neg (by simp), Text.behind?_append]
  simp only [words_cons_blank (c := ' ') rfl, words_append_of_solid hkind,
    words_of_solid (solid_of_isWord h), List.getElem?_cons_succ, List.getElem?_cons_zero, required]
  rfl

theorem encodeLine_end (e : Encoder) (n : Nat) (kind : SectionKind) :
    encodeLine e n (Text.trim (s!"@end {kind.spelling}").toList) =
      .ok ([], { e with current := none }) := by
  cases kind <;> rfl

/-- A section whose name is a word and whose lines are readable. -/
structure SectionReadable (s : Section) : Prop where
  name : IsWord s.name
  code : ∀ line ∈ s.code, Readable line

/-- The texts of a section, line by line. -/
def sectionTexts (s : Section) : List (List Char) :=
  s.lines.map String.toList

theorem sectionTexts_eq (s : Section) : sectionTexts s =
    (s!"@begin {s.kind.spelling} {s.name}").toList :: (s.name ++ ":").toList ::
      (codeTexts s.code ++ [(s!"@end {s.kind.spelling}").toList]) := by
  simp only [sectionTexts, Section.lines, List.map_append, List.map_cons, List.map_nil, codeTexts,
    List.map_map, List.cons_append, List.nil_append]
  rfl

section

variable {s : Section} (hs : SectionReadable s) {e : Encoder} {globals : List String}
  (he : e.globals = numbering 0 globals) (n : Nat) (rest : List (List Char))
include hs he

/-- The lines that open a section leave the code to be read. -/
theorem encodeLines_header : encodeLines e n (sectionTexts s ++ rest) =
    (encodeLines (Naming.encoder ⟨globals, []⟩ (some s.name)) (n + 2)
      (codeTexts s.code ++ ((s!"@end {s.kind.spelling}").toList :: rest))).map
        ([.label s.name] ++ ·) := by
  rw [sectionTexts_eq, List.cons_append, List.cons_append, List.append_assoc, List.singleton_append,
    encodeLines_cons (encodeLine_begin e n s.kind hs.name),
    encodeLines_cons (encodeLine_colon rfl (n + 1) hs.name.ne_nil hs.name.isWordPart),
    map_map_append, labelSymbol_of_isWord _ hs.name, he]
  rfl

theorem encodeLines_section : ((∀ line ∈ s.code, Known line) ∧
      ∃ e', e'.globals = numbering 0 (globalsThrough globals s) ∧ ∃ m,
        encodeLines e n (sectionTexts s ++ rest) =
          (encodeLines e' m rest).map (sectionItems globals s ++ ·)) ∨
    ∃ m callee, encodeLines e n (sectionTexts s ++ rest) = .error (.unknownNative m callee) ∧
      .instruction (.invokeNative callee) ∈ s.code ∧ callee ∉ natives := by
  rw [encodeLines_header hs he]
  rcases encodeLines_code (k := ⟨globals, []⟩) hs.code (n + 2) _ with
    ⟨hknown, hcode⟩ | ⟨m, callee, herror, hmem, hnative⟩
  · rw [hcode, encodeLines_cons (encodeLine_end _ _ s.kind), map_map_append, map_map_append]
    refine .inl ⟨hknown, { (Naming.through ⟨globals, []⟩ s.code).encoder
      (some s.name) with current := none }, rfl, n + 2 + s.code.length + 1, ?_⟩
    rw [List.append_nil]
    rfl
  · rw [herror]
    exact .inr ⟨m, callee, rfl, hmem, hnative⟩

end

theorem encodeLines_sections (hs : ∀ s ∈ sections, SectionReadable s) {globals : List String}
    (he : e.globals = numbering 0 globals) (n : Nat) :
    ((∀ s ∈ sections, ∀ line ∈ s.code, Known line) ∧
      encodeLines e n (sections.flatMap sectionTexts) = .ok (sectionsItems globals sections)) ∨
    ∃ m callee, encodeLines e n (sections.flatMap sectionTexts) = .error (.unknownNative m callee) ∧
      callee ∉ natives ∧ ∃ s ∈ sections, .instruction (.invokeNative callee) ∈ s.code := by
  induction sections generalizing e globals n with
  | nil => exact .inl ⟨by simp, rfl⟩
  | cons s sections ih =>
    obtain ⟨hs, hsections⟩ := List.forall_mem_cons.1 hs
    rw [List.flatMap_cons]
    rcases encodeLines_section hs he n (sections.flatMap sectionTexts) with
      ⟨hknown, e', he', m, hencode⟩ | ⟨m, callee, herror, hmem, hnative⟩
    · rw [hencode]
      rcases ih hsections he' m
        with ⟨hknowns, hsections⟩ | ⟨m, callee, herror, hnative, s', hs', hmem⟩
      · rw [hsections]
        exact .inl ⟨List.forall_mem_cons.2 ⟨hknown, hknowns⟩, rfl⟩
      · rw [herror]
        exact .inr ⟨m, callee, rfl, hnative, s', List.mem_cons_of_mem _ hs', hmem⟩
    · exact .inr ⟨m, callee, herror, hnative, s, List.mem_cons_self .., hmem⟩

/-! ### Lines of sections -/

/-- A line that stays whole when a text is divided into lines. -/
def OneLine (cs : List Char) : Prop :=
  '\n' ∉ cs ∧ cs.getLast? ≠ some '\r'

theorem oneLine_append {ds : List Char} (hcs : '\n' ∉ cs) (hds : Compact ds) :
    OneLine (cs ++ ds) := by
  refine ⟨fun h => ?_, fun h => ?_⟩
  · rcases List.mem_append.1 h with h | h
    · exact hcs h
    · exact hds.newline h
  · rw [getLast?_append_of_ne_nil _ hds.ne_nil] at h
    have hblank := (hds.last _ h).1
    cases hblank

theorem oneLine_colon (hname : Solid name.toList) : OneLine (name ++ ":").toList := by
  rw [String.toList_append]
  refine ⟨fun h => ?_, by simp⟩
  rcases List.mem_append.1 h with h | h
  · exact hname.compact.newline h
  · revert h
    decide

theorem oneLine_render {line : CodeLine} (h : Readable line) : OneLine line.render.toList := by
  cases line with
  | label name =>
    obtain ⟨n, rfl⟩ := h
    exact oneLine_colon (solid_toString_nat n)
  | instruction i =>
    rw [CodeLine.render]
    cases hi : i.operands with
    | some operands =>
      rw [toList_render_of_operands hi, ← List.append_assoc, ← List.cons_append]
      refine oneLine_append ?_ (compact_operands h hi)
      have hm := (solid_of_isWord (isWord_mnemonic i.opcode)).compact.newline
      simp [hm]
    | none =>
      cases i with
      | plain op =>
        rw [toList_render_plain]
        exact oneLine_append (by decide : '\n' ∉ ['\t'])
          (solid_of_isWord (isWord_mnemonic op.opcode)).compact
      | _ => cases hi

theorem oneLine_sectionTexts {s : Section} (hs : SectionReadable s) :
    ∀ text ∈ sectionTexts s, OneLine text := by
  have hend : OneLine (s!"@end {s.kind.spelling}").toList := by
    cases s.kind <;> exact ⟨by decide, by decide⟩
  have hbegin : OneLine (s!"@begin {s.kind.spelling} {s.name}").toList := by
    have htext : (s!"@begin {s.kind.spelling} {s.name}").toList =
        (s!"@begin {s.kind.spelling} ").toList ++ s.name.toList := by
      simp only [String.toList_append, List.append_assoc]
      rfl
    rw [htext]
    refine oneLine_append ?_ (solid_of_isWord hs.name).compact
    cases s.kind <;> decide
  rw [sectionTexts_eq]
  refine List.forall_mem_cons.2
    ⟨hbegin, List.forall_mem_cons.2 ⟨oneLine_colon (solid_of_isWord hs.name), fun text htext => ?_⟩⟩
  rcases List.mem_append.1 htext with htext | htext
  · obtain ⟨line, hline, rfl⟩ := List.mem_map.1 htext
    exact oneLine_render (hs.code line hline)
  · rw [List.mem_singleton.1 htext]
    exact hend

theorem lines_renderAll (hs : ∀ s ∈ sections, SectionReadable s) :
    Text.lines (Section.renderAll sections).toList = sections.flatMap sectionTexts := by
  have htexts : (Section.renderAll sections).toList =
      (sections.flatMap sectionTexts).flatMap (· ++ ['\n']) := by
    rw [Section.renderAll, String.toList_join, List.flatMap_map, List.flatMap_assoc,
      List.flatMap_assoc]
    congr 1
    funext s
    rw [sectionTexts, List.flatMap_map]
    congr 1
    funext line
    exact String.toList_append
  have hone : ∀ text ∈ sections.flatMap sectionTexts, OneLine text := fun text htext => by
    obtain ⟨s, hmem, htext⟩ := List.mem_flatMap.1 htext
    exact oneLine_sectionTexts (hs s hmem) text htext
  rw [htexts, Text.lines_unlines (fun text h => (hone text h).1) fun text h => (hone text h).2]

theorem numbering_start : ({} : Encoder).globals = numbering 0 [] := rfl

/-- The encoder finds the items of readable sections in their text. -/
theorem encode_renderAll (hs : ∀ s ∈ sections, SectionReadable s)
    (hknown : ∀ s ∈ sections, ∀ line ∈ s.code, Known line) :
    encode (Section.renderAll sections) = .ok (sectionsItems [] sections) := by
  rw [encode, lines_renderAll hs]
  rcases encodeLines_sections hs numbering_start 1 with
    ⟨-, hencode⟩ | ⟨m, callee, -, hnative, s, hmem, hcall⟩
  · exact hencode
  · exact absurd (hknown s hmem _ hcall callee rfl) hnative

/-- An unknown native function stops the encoder, and it is the one that is reported. -/
theorem encode_renderAll_unknown (hs : ∀ s ∈ sections, SectionReadable s)
    (hunknown : ¬ ∀ s ∈ sections, ∀ line ∈ s.code, Known line) :
    ∃ m callee, encode (Section.renderAll sections) = .error (.unknownNative m callee) ∧
      callee ∉ natives ∧ ∃ s ∈ sections, .instruction (.invokeNative callee) ∈ s.code := by
  rw [encode, lines_renderAll hs]
  exact (encodeLines_sections hs numbering_start 1).resolve_left fun h => hunknown h.1

end Firestorm.Bytecode
