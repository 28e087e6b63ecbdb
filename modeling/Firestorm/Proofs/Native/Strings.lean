import Mathlib.Tactic.Common
import Firestorm.Native.Riscv.Lower
import Firestorm.Native.X86.Lower
import Firestorm.Proofs.Text.Reading

/-!
# Strings in data

Both assemblers are told the bytes of a string by a text: one by a list of texts between quotation
marks and of decimal numbers, the other by one text between quotation marks with escapes. The two
ways of reading are defined here one character at a time, and what is written for a string is read
as its bytes and a zero byte.

## Main definitions

* `Native.Reader`, `Native.Reader.read`, `X86.dataReader`, `Riscv.stringReader`.

## Main results

* `X86.read_fragments`, `Riscv.read_escaped`.
* `Native.string_data_faithful`: both assemblers store the bytes of a string and a zero byte.
-/

namespace Firestorm

namespace Native

/-! ### Reading one character at a time -/

/-- A way of reading bytes from a text. In each mode, a character gives some bytes and the next
mode, or is refused. In some modes the text may end, which may give bytes too. -/
structure Reader (Mode : Type) where
  step : Mode → Char → Option (List UInt8 × Mode)
  finish : Mode → Option (List UInt8)

namespace Reader

variable {Mode : Type} {R : Reader Mode} {m m₁ m₂ : Mode} {text more : List Char}
  {bytes others : List UInt8}

/-- The bytes that a text gives. -/
def read (R : Reader Mode) : Mode → List Char → Option (List UInt8)
  | m, [] => R.finish m
  | m, c :: cs => do
    let (bytes, next) ← R.step m c
    return bytes ++ (← R.read next cs)

/-- A text gives some bytes and leads to another mode, whatever follows it. -/
def Reads (R : Reader Mode) (m : Mode) (text : List Char) (bytes : List UInt8) (m₁ : Mode) : Prop :=
  ∀ rest, R.read m (text ++ rest) = (R.read m₁ rest).map (bytes ++ ·)

theorem Reads.of_step {c : Char} (h : R.step m c = some (bytes, m₁)) : R.Reads m [c] bytes m₁ := by
  intro rest
  simp only [List.singleton_append, read, h, Option.bind_eq_bind, Option.bind_some]
  cases R.read m₁ rest <;> rfl

theorem Reads.append (h : R.Reads m text bytes m₁) (hmore : R.Reads m₁ more others m₂) :
    R.Reads m (text ++ more) (bytes ++ others) m₂ := by
  intro rest
  rw [List.append_assoc, h, hmore, Option.map_map]
  simp [Function.comp_def]

/-- A character that gives no byte only changes the mode. -/
theorem Reads.skip {c : Char} (h : R.step m c = some ([], m₁)) (hmore : R.Reads m₁ more others m₂) :
    R.Reads m (c :: more) others m₂ :=
  (of_step h).append hmore

theorem Reads.read_eq (h : R.Reads m text bytes m₁) (hend : R.finish m₁ = some others) :
    R.read m text = some (bytes ++ others) := by
  simpa [read, hend] using h []

/-- What is written for each byte is read as this byte, so all of it is read as all bytes. -/
theorem Reads.flatMap {written : UInt8 → List Char} (h : ∀ b ∈ bytes, R.Reads m (written b) [b] m) :
    R.Reads m (bytes.flatMap written) bytes m := by
  induction bytes with
  | nil => intro rest; simp
  | cons b bytes ih =>
    obtain ⟨hb, hbytes⟩ := List.forall_mem_cons.1 h
    exact hb.append (ih hbytes)

end Reader

/-- The character of a byte has this byte as its UTF-8 form, if it is an ASCII character. -/
theorem utf8EncodeChar_ofNat {b : UInt8} (h : b ≤ 0x7e) :
    String.utf8EncodeChar (Char.ofNat b.toNat) = [b] := by
  have hall : ∀ n < 0x7f, String.utf8EncodeChar (Char.ofNat n) = [UInt8.ofNat n] := by decide
  rw [hall b.toNat (Nat.lt_succ_of_le (UInt8.le_iff_toNat_le.1 h)), UInt8.ofNat_toNat]

end Native

namespace X86

open Native

/-! ### Lists of texts and numbers -/

/-- Where reading of a list is: in front of an item, within quotation marks, behind the leading
digits of a number, or behind an item. -/
inductive DataMode
  | item
  | quoted
  | number (value : Nat)
  | behind
deriving Repr, DecidableEq

/-- Reading the operands of `db`. Commas divide the items, and blanks may stand around them. Between
quotation marks every character stands for itself, and a number is a byte. -/
def dataReader : Reader DataMode where
  step
    | .item, c =>
      if c = ' ' then some ([], .item)
      else if c = '"' then some ([], .quoted)
      else if c.isDigit then some ([], .number (c.toNat - '0'.toNat))
      else none
    | .quoted, c => if c = '"' then some ([], .behind) else some (String.utf8EncodeChar c, .quoted)
    | .number value, c =>
      if c.isDigit then some ([], .number (10 * value + (c.toNat - '0'.toNat)))
      else if 255 < value then none
      else if c = ' ' then some ([UInt8.ofNat value], .behind)
      else if c = ',' then some ([UInt8.ofNat value], .item)
      else none
    | .behind, c =>
      if c = ' ' then some ([], .behind) else if c = ',' then some ([], .item) else none
  finish
    | .number value => if 255 < value then none else some [UInt8.ofNat value]
    | .behind => some []
    | .item | .quoted => none

/-- The bytes of a part of a string. -/
def Fragment.bytes : Fragment → List UInt8
  | quoted bytes => bytes
  | byte value => [value]

/-- A part can be written: what stands between quotation marks is plain. -/
def Fragment.Plain : Fragment → Prop
  | quoted bytes => ∀ b ∈ bytes, isPlain b = true
  | byte _ => True

theorem flatMap_bytes_fragments (bytes : List UInt8) :
    (fragments bytes).flatMap Fragment.bytes = bytes ++ [0] := by
  fun_induction fragments bytes with
  | case1 => rfl
  | case2 b bytes hplain more rest hmore ih => simpa [hmore, Fragment.bytes] using ih
  | case3 b bytes hplain hmore ih => simpa [Fragment.bytes] using ih
  | case4 b bytes hplain ih => simpa [Fragment.bytes] using ih

theorem plain_fragments (bytes : List UInt8) : ∀ p ∈ fragments bytes, p.Plain := by
  fun_induction fragments bytes with
  | case1 => simp [Fragment.Plain]
  | case2 b bytes hplain more rest hmore ih =>
    rw [hmore] at ih
    obtain ⟨hfirst, hrest⟩ := List.forall_mem_cons.1 ih
    exact List.forall_mem_cons.2 ⟨List.forall_mem_cons.2 ⟨hplain, hfirst⟩, hrest⟩
  | case3 b bytes hplain hmore ih =>
    exact List.forall_mem_cons.2 ⟨List.forall_mem_singleton.2 hplain, ih⟩
  | case4 b bytes hplain ih => exact List.forall_mem_cons.2 ⟨trivial, ih⟩

theorem fragments_ne_nil (bytes : List UInt8) : fragments bytes ≠ [] := by
  intro h
  simpa [h] using flatMap_bytes_fragments bytes

theorem reads_digits {cs : List Char} (hcs : ∀ c ∈ cs, c.isDigit = true) (value : Nat) :
    dataReader.Reads (.number value) cs [] (.number (Nat.ofDigitChars 10 cs value)) := by
  induction cs generalizing value with
  | nil => intro rest; simp [Nat.ofDigitChars]
  | cons c cs ih =>
    obtain ⟨hc, hcs⟩ := List.forall_mem_cons.1 hcs
    rw [Nat.ofDigitChars_cons]
    exact .skip (by simp [dataReader, hc]) (ih hcs _)

theorem reads_number (n : Nat) : dataReader.Reads .item (toString n).toList [] (.number n) := by
  have hdigits : ∀ c ∈ Nat.toDigits 10 n, c.isDigit = true :=
    fun c hc => Nat.isDigit_of_mem_toDigits (by omega) (by omega) hc
  have hvalue := Nat.ofDigitChars_ten_toDigits (n := n)
  rw [Text.Decimal.toList_toString]
  obtain ⟨c, cs, hcons, hc⟩ := Text.Decimal.exists_toDigits_eq_cons n
  rw [hcons] at hdigits hvalue ⊢
  rw [Nat.ofDigitChars_cons] at hvalue
  have hblank : c ≠ ' ' := by rintro rfl; cases hc
  have hquote : c ≠ '"' := by rintro rfl; cases hc
  rw [← hvalue, Nat.mul_zero, Nat.zero_add]
  exact .skip (by simp [dataReader, hblank, hquote, hc])
    (reads_digits (List.forall_mem_cons.1 hdigits).2 _)

theorem reads_plain {b : UInt8} (h : isPlain b = true) :
    dataReader.Reads .quoted [Char.ofNat b.toNat] [b] .quoted := by
  simp only [isPlain, Bool.and_eq_true, decide_eq_true_eq, bne_iff_ne] at h
  have hbyte := utf8EncodeChar_ofNat h.1.1.2
  have hquote : Char.ofNat b.toNat ≠ '"' := by
    intro hc
    rw [hc] at hbyte
    exact h.1.2 (List.singleton_inj.1 hbyte).symm
  exact .of_step (by rw [← hbyte]; exact if_neg hquote)

theorem reads_quoted {bytes : List UInt8} (h : ∀ b ∈ bytes, isPlain b = true) :
    dataReader.Reads .item (Fragment.quoted bytes).render.toList bytes .behind := by
  have hinner : dataReader.Reads .quoted (bytes.map fun b => Char.ofNat b.toNat) bytes .quoted := by
    rw [List.map_eq_flatMap]
    exact .flatMap fun b hb => reads_plain (h b hb)
  have hclose : dataReader.Reads .quoted ['"'] [] .behind := .of_step rfl
  have hquoted : dataReader.Reads .item ('"' :: _) (bytes ++ []) .behind :=
    .skip rfl (hinner.append hclose)
  simpa [Fragment.render] using hquoted

/-- A part is read, in front of another one and as the last one. -/
theorem read_part {p : Fragment} (h : p.Plain) :
    dataReader.Reads .item (p.render.toList ++ ", ".toList) p.bytes .item ∧
      dataReader.read .item p.render.toList = some p.bytes := by
  cases p with
  | quoted bytes =>
    have hdivide : dataReader.Reads .behind ", ".toList [] .item := .skip rfl (.of_step rfl)
    refine ⟨?_, ?_⟩
    · simpa [Fragment.bytes] using (reads_quoted h).append hdivide
    · simpa [Fragment.bytes] using (reads_quoted h).read_eq rfl
  | byte value =>
    have hle : ¬ 255 < value.toNat := by have := value.toNat_lt; omega
    have hcomma : dataReader.Reads (.number value.toNat) [','] [value] .item :=
      .of_step (by simp [dataReader, hle])
    have hend : dataReader.finish (.number value.toNat) = some [value] := by simp [dataReader, hle]
    exact ⟨(reads_number _).append (hcomma.append (.of_step rfl)), (reads_number _).read_eq hend⟩

/-- Parts are read one after another. -/
theorem read_parts {parts : List Fragment} (hne : parts ≠ []) (h : ∀ p ∈ parts, p.Plain) :
    dataReader.read .item (String.intercalate ", " (parts.map Fragment.render)).toList =
      some (parts.flatMap Fragment.bytes) := by
  rw [String.toList_intercalate, List.map_map]
  induction parts with
  | nil => exact absurd rfl hne
  | cons p parts ih =>
    obtain ⟨hp, hparts⟩ := List.forall_mem_cons.1 h
    cases parts with
    | nil => simpa using (read_part hp).2
    | cons q parts =>
      have hrest := ih (by simp) hparts
      simp only [List.map_cons, List.intercalate_cons_cons] at hrest ⊢
      rw [Function.comp_apply, (read_part hp).1, hrest]
      simp

/-- The operands that are written for bytes are read as these bytes and a zero byte. -/
theorem read_fragments (bytes : List UInt8) :
    dataReader.read .item (String.intercalate ", " ((fragments bytes).map Fragment.render)).toList =
      some (bytes ++ [0]) := by
  rw [read_parts (fragments_ne_nil bytes) (plain_fragments bytes), flatMap_bytes_fragments]

end X86

namespace Riscv

open Native

/-! ### Texts with escapes -/

/-- Where reading of a text is: in front of its quotation marks, within them, behind a backslash,
behind the leading digits of an octal number of which up to `left` more may follow, or behind the
text. -/
inductive StringMode
  | opening
  | plain
  | escape
  | octal (value left : Nat)
  | closed
deriving Repr, DecidableEq

/-- The value of an octal digit. -/
def octalDigit? (c : Char) : Option Nat :=
  if '0' ≤ c ∧ c ≤ '7' then some (c.toNat - '0'.toNat) else none

/-- Reads a character that is no part of an escape. -/
def plainStep (c : Char) : List UInt8 × StringMode :=
  if c = '"' then ([], .closed)
  else if c = '\\' then ([], .escape)
  else (String.utf8EncodeChar c, .plain)

/-- Reads a character behind a backslash. -/
def escapeStep (c : Char) : Option (List UInt8 × StringMode) :=
  if c = 'n' then some ([0x0a], .plain)
  else if c = 't' then some ([0x09], .plain)
  else if c = '"' then some ([0x22], .plain)
  else if c = '\\' then some ([0x5c], .plain)
  else (octalDigit? c).map fun digit => ([], .octal digit 2)

/-- Reading the operand of `.string`, a text between quotation marks. A backslash escapes a newline,
a tab, a quotation mark, a backslash, or a byte of up to three octal digits. -/
def stringReader : Reader StringMode where
  step
    | .opening, c => if c = '"' then some ([], .plain) else none
    | .plain, c => some (plainStep c)
    | .escape, c => escapeStep c
    | .octal value 0, c => some (UInt8.ofNat value :: (plainStep c).1, (plainStep c).2)
    | .octal value (left + 1), c =>
      match octalDigit? c with
      | some digit => some ([], .octal (8 * value + digit) left)
      | none => some (UInt8.ofNat value :: (plainStep c).1, (plainStep c).2)
    | .closed, _ => none
  finish
    | .closed => some []
    | .opening | .plain | .escape | .octal _ _ => none

/-- A number of three digits is complete, whatever follows. -/
theorem reads_complete (value : Nat) :
    stringReader.Reads (.octal value 0) [] [UInt8.ofNat value] .plain := by
  intro rest
  cases rest with
  | nil => rfl
  | cons c rest =>
    simp only [List.nil_append, Reader.read, stringReader, Option.bind_eq_bind, Option.bind_some]
    cases Reader.read _ (plainStep c).2 rest <;> rfl

theorem octalDigit?_digitChar {digit : Nat} (h : digit < 8) :
    octalDigit? (Nat.digitChar digit) = some digit := by
  have hall : ∀ digit < 8, octalDigit? (Nat.digitChar digit) = some digit := by decide
  exact hall digit h

theorem escapeStep_digitChar {digit : Nat} (h : digit < 8) :
    escapeStep (Nat.digitChar digit) = some ([], .octal digit 2) := by
  have hall : ∀ digit < 8, escapeStep (Nat.digitChar digit) = some ([], .octal digit 2) := by decide
  exact hall digit h

/-- A byte is read from its three octal digits. -/
theorem reads_octal (b : UInt8) : stringReader.Reads .plain
    ['\\', Nat.digitChar (b.toNat / 64), Nat.digitChar (b.toNat / 8 % 8),
      Nat.digitChar (b.toNat % 8)] [b] .plain := by
  have hlt := b.toNat_lt
  have hvalue : 8 * (8 * (b.toNat / 64) + b.toNat / 8 % 8) + b.toNat % 8 = b.toNat := by omega
  have hcomplete := reads_complete b.toNat
  rw [UInt8.ofNat_toNat, ← hvalue] at hcomplete
  have hdigit : ∀ value left digit, digit < 8 →
      stringReader.step (.octal value (left + 1)) (Nat.digitChar digit) =
      some ([], .octal (8 * value + digit) left) := by
    intro value left digit hdigit
    simp only [stringReader, octalDigit?_digitChar hdigit]
  exact .skip rfl (.skip (escapeStep_digitChar (by omega)) (.skip (hdigit _ _ _ (by omega))
    (.skip (hdigit _ _ _ (by omega)) hcomplete)))

theorem reads_escapeByte (b : UInt8) : stringReader.Reads .plain (escapeByte b) [b] .plain := by
  unfold escapeByte
  split_ifs with hnewline htab hmark hplain
  · subst hnewline
    exact .skip rfl (.of_step rfl)
  · subst htab
    exact .skip rfl (.of_step rfl)
  · obtain rfl | rfl := hmark
    · exact .skip rfl (.of_step rfl)
    · exact .skip rfl (.of_step rfl)
  · have hbyte := utf8EncodeChar_ofNat hplain.2
    have hne : ∀ c : Char, Char.ofNat b.toNat = c → String.utf8EncodeChar c = [b] := by
      rintro _ rfl
      exact hbyte
    refine .of_step (congrArg some ?_)
    rw [plainStep, if_neg, if_neg, hbyte]
    · intro hc
      exact hmark (.inr (List.singleton_inj.1 (hne _ hc)).symm)
    · intro hc
      exact hmark (.inl (List.singleton_inj.1 (hne _ hc)).symm)
  · exact reads_octal b

/-- The operand that is written for bytes is read as these bytes. -/
theorem read_escaped (bytes : List UInt8) :
    stringReader.read .opening ("\"" ++ String.ofList (bytes.flatMap escapeByte) ++ "\"").toList =
    some bytes := by
  have hinner : stringReader.Reads .plain (bytes.flatMap escapeByte) bytes .plain :=
    .flatMap fun b _ => reads_escapeByte b
  have hclose : stringReader.Reads .plain ['"'] [] .closed := .of_step rfl
  have hquoted : stringReader.Reads .opening ('"' :: _) (bytes ++ []) .closed :=
    .skip rfl (hinner.append hclose)
  simpa using hquoted.read_eq rfl

end Riscv

/-! ### Both assemblers -/

/-- The line of a string tells both assemblers the bytes of the string: one reads them with a zero
byte at the end, the other one adds it. -/
theorem Native.string_data_faithful (label content : String) :
    ∃ operands operand : String,
      (X86.lower (.string label content)).map X86.Line.render = [label ++ ": db " ++ operands] ∧
      (Riscv.lower (.string label content)).map Riscv.Line.render =
      [label ++ ": .string " ++ operand] ∧
      X86.dataReader.read .item operands.toList = some (Text.utf8 content.toList ++ [0]) ∧
      Riscv.stringReader.read .opening operand.toList = some (Text.utf8 content.toList) := by
  refine ⟨_, "\"" ++ String.ofList ((Text.utf8 content.toList).flatMap Riscv.escapeByte) ++ "\"",
    rfl, ?_, X86.read_fragments _, Riscv.read_escaped _⟩
  refine congrArg (fun line => [line]) (String.toList_inj.1 ?_)
  simp [Riscv.Line.render]

end Firestorm
