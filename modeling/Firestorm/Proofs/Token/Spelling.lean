import Mathlib.Data.String.Basic
import Firestorm.Proofs.Program.Words
import Firestorm.Proofs.Text.Reading

/-!
# Tokens and their spellings

Reading a text undoes the writing of its tokens. Every token has a spelling, and a text that puts
blanks or comments behind each spelling is read as these tokens, each at the byte where its spelling
starts. A gap has to begin with a blank: a comment right behind a slash would take it for its own.

## Main definitions

* `Token.spelling`, `Token.Spellable`, `Lexer.Gap`, `Lexer.Separator`, `spaced`.

## Main results

* `Lexer.skipGap_append`, `Lexer.step_spelling`.
* `tokenize_spaced`: a text of spelled tokens is read as these tokens.
-/

namespace Firestorm

open Fallible

variable {gap : List Char}

namespace Token

/-- The text of a token. -/
def spelling : Token → String
  | id name => name
  | keyword word => word.spelling
  | int value => toString value.toInt
  | str content => "\"" ++ content ++ "\""
  | chr byte => String.ofList ['\'', Char.ofNat byte.toNat, '\'']
  | t => t.symbol?.getD ""

/-- The tokens whose spelling is read as one token: an identifier is a word that is not reserved, a
number has no sign, a string has no quotation mark, and a character is one of seven bits other than
its mark. -/
def Spellable : Token → Prop
  | id name => IsWord name ∧ Keyword.ofSpelling? name = none
  | int value => 0 ≤ value
  | str content => '"' ∉ content.toList
  | chr byte => byte < 128 ∧ byte ≠ 39
  | _ => True

end Token

namespace Lexer

variable {cs : List Char} {c : Char}

/-! ### Gaps -/

/-- Blanks and comments, each comment with the newline that ends it. -/
inductive Gap : List Char → Prop
  | nil : Gap []
  | blank {c : Char} {cs : List Char} (hc : Text.isBlank c = true) (hcs : Gap cs) : Gap (c :: cs)
  | comment {content cs : List Char} (hcontent : '\n' ∉ content) (hcs : Gap cs) :
    Gap ('/' :: '/' :: (content ++ '\n' :: cs))

/-- A gap that begins with a blank. -/
structure Separator (cs : List Char) : Prop where
  gap : Gap cs
  blank : ∃ b ∈ cs.head?, Text.isBlank b = true

theorem Separator.exists_cons (h : Separator cs) :
    ∃ b rest, cs = b :: rest ∧ Text.isBlank b = true := by
  obtain ⟨b, hb, hblank⟩ := h.blank
  obtain ⟨rest, rfl⟩ := List.head?_eq_some_iff.1 hb
  exact ⟨b, rest, rfl, hblank⟩

/-- One step where no comment starts. -/
theorem skipGap_cons (h : c = '/' → ∀ rest, cs ≠ '/' :: rest) (offset : Nat) :
    skipGap false offset (c :: cs) =
      if Text.isBlank c then skipGap false (offset + c.utf8Size) cs else (offset, c :: cs) := by
  -- the equation for this case alone takes long to derive, since it excludes the others
  rw [skipGap.eq_def]
  split
  · next hcons => cases hcons
  · next hflag _ => cases hflag
  · next hcons =>
    cases hcons
    exact absurd rfl (h rfl _)
  · next hcons =>
    cases hcons
    rfl

theorem skipGap_comment {content : List Char} (h : '\n' ∉ content) (offset : Nat) (cs : List Char) :
    skipGap true offset (content ++ '\n' :: cs) =
      skipGap false (offset + Text.byteSize (content ++ ['\n'])) cs := by
  induction content generalizing offset with
  | nil => rfl
  | cons c content ih =>
    obtain ⟨hc, hcontent⟩ := not_or.1 (List.mem_cons.not.1 h)
    have hflag : (c != '\n') = true := by simpa using Ne.symm hc
    have hstep : skipGap true offset (c :: (content ++ '\n' :: cs)) =
        skipGap (c != '\n') (offset + c.utf8Size) (content ++ '\n' :: cs) := rfl
    rw [List.cons_append, hstep, hflag, ih hcontent, List.cons_append, Text.byteSize_cons,
      Nat.add_assoc]

theorem skipGap_blank (hc : Text.isBlank c = true) (offset : Nat) (cs : List Char) :
    skipGap false offset (c :: cs) = skipGap false (offset + c.utf8Size) cs := by
  rw [skipGap_cons, if_pos hc]
  rintro rfl
  exact absurd hc (by decide)

/-- A gap is skipped. -/
theorem skipGap_append (h : Gap gap) (offset : Nat) (cs : List Char) :
    skipGap false offset (gap ++ cs) = skipGap false (offset + Text.byteSize gap) cs := by
  induction h generalizing offset with
  | nil => rfl
  | @blank c gap hc _ ih =>
    rw [List.cons_append, skipGap_blank hc, ih, Text.byteSize_cons, Nat.add_assoc]
  | @comment content gap hcontent _ ih =>
    have hshape : '/' :: '/' :: (content ++ '\n' :: gap) ++ cs =
        '/' :: '/' :: (content ++ '\n' :: (gap ++ cs)) := by simp
    have hslash : '/'.utf8Size = 1 := rfl
    have hstep : skipGap false offset ('/' :: '/' :: (content ++ '\n' :: (gap ++ cs))) =
        skipGap true (offset + 2) (content ++ '\n' :: (gap ++ cs)) := rfl
    rw [hshape, hstep, skipGap_comment hcontent, ih]
    simp only [Text.byteSize_cons, Text.byteSize_append, Text.byteSize_nil, hslash]
    congr 1
    omega

/-- Nothing is skipped where a lexeme starts. -/
theorem skipGap_of_not_gap (hc : Text.isBlank c = false)
    (hslash : c = '/' → ∀ rest, cs ≠ '/' :: rest) (offset : Nat) :
    skipGap false offset (c :: cs) = (offset, c :: cs) := by
  rw [skipGap_cons hslash, if_neg (by simp [hc])]

theorem step_of_not_gap (hc : Text.isBlank c = false) (hslash : c = '/' → ∀ rest, cs ≠ '/' :: rest)
    (offset : Nat) : step offset (c :: cs) = lexeme offset c cs := by
  rw [step, skipGap_of_not_gap hc hslash]

theorem step_append (h : Gap gap) (offset : Nat) (cs : List Char) :
    step offset (gap ++ cs) = step (offset + Text.byteSize gap) cs := by
  rw [step, step, skipGap_append h]

theorem run_of_done {offset : Nat} (h : step offset cs = .done) : run offset cs = .ok [] := by
  rw [run]
  split
  · rfl
  · next hstep => simp [hstep] at h
  · next hstep => simp [hstep] at h

theorem run_of_token {offset next : Nat} {rest : List Char} {token : Located Token}
    (h : step offset cs = .token token next rest) :
    run offset cs = (run next rest).map (token :: ·) := by
  rw [run]
  split
  · next hstep => simp [hstep] at h
  · next hstep =>
    rw [hstep] at h
    cases h
    cases run next rest <;> rfl
  · next hstep => simp [hstep] at h

/-! ### Lexemes in front of a blank -/

/-- Operators and punctuation marks start with neither letters nor digits nor marks of literals. -/
theorem symbol?_eq_none (h : isWordPart c = true ∨ c = '"' ∨ c = '\'') (cs : List Char) :
    symbol? (c :: cs) = none := by
  unfold symbol?
  split
  case h_31 => rfl
  all_goals
    rename_i heq
    obtain ⟨rfl, -⟩ := List.cons.inj heq
    exact absurd h (by decide)

theorem not_isWordPart_of_isBlank {b : Char} (hb : Text.isBlank b = true) :
    isWordPart b = false := by
  by_contra h
  rw [isBlank_of_isWordPart (Bool.eq_true_of_not_eq_false h)] at hb
  cases hb

theorem utf8Size_of_isWordPart (h : isWordPart c = true) : c.utf8Size = 1 := by
  have hc := toNat_of_isWordPart h
  have hval : c.val.toNat = c.toNat := rfl
  rw [Char.utf8Size_eq_one_iff, UInt32.le_iff_toNat_le, hval]
  simp only [UInt32.reduceToNat]
  omega

theorem byteSize_of_isWordPart (h : ∀ c ∈ cs, isWordPart c = true) :
    Text.byteSize cs = cs.length := by
  induction cs with
  | nil => rfl
  | cons c cs ih =>
    obtain ⟨hc, hcs⟩ := List.forall_mem_cons.1 h
    rw [Text.byteSize_cons, utf8Size_of_isWordPart hc, ih hcs, List.length_cons, Nat.add_comm]

section

variable {b : Char} (hb : Text.isBlank b = true) (offset : Nat) (rest : List Char)

include hb

variable {t : Token} {text : String}

/-- A word in front of a blank is read as its token. -/
theorem step_word {name : String} (h : IsWord name) :
    step offset (name.toList ++ b :: rest) =
      .token ⟨offset, wordToken name⟩ (offset + Text.byteSize name.toList) (b :: rest) := by
  have hparts := h.isWordPart
  obtain ⟨c, cs, hname, hc, hcs⟩ := h
  have hpart := isWordPart_of_isWordStart hc
  have hb' := not_isWordPart_of_isBlank hb
  have htake : (cs ++ b :: rest).takeWhile isWordPart = cs := by
    rw [List.takeWhile_append_of_pos hcs, List.takeWhile_cons_of_neg (by simp [hb']),
      List.append_nil]
  have hdrop : (cs ++ b :: rest).dropWhile isWordPart = b :: rest := by
    rw [List.dropWhile_append_of_pos hcs, List.dropWhile_cons_of_neg (by simp [hb'])]
  have hslash : c ≠ '/' := ne_of_isWordPart hpart (by decide)
  have hquote : c ≠ '"' := ne_of_isWordPart hpart (by decide)
  have hmark : c ≠ '\'' := ne_of_isWordPart hpart (by decide)
  rw [byteSize_of_isWordPart hparts, hname, List.cons_append,
    step_of_not_gap (isBlank_of_isWordPart hpart) fun h => absurd h hslash, lexeme,
    symbol?_eq_none (.inl hpart)]
  simp only [hquote, hmark, hc, if_false, if_true, htake, hdrop]
  rw [← hname, String.ofList_toList]

/-- Digits in front of a blank are read as their number, if it is a word. -/
theorem integer_digits {digits : List Char} (hdigits : ∀ c ∈ digits, c.isDigit = true)
    {value : Nat} (hmax : Nat.ofDigitChars 10 digits value ≤ Int64.maxValue.toInt.toNat)
    (start : Nat) :
    integer start value offset (digits ++ b :: rest) =
      .token ⟨start, .int (Int64.ofNat (Nat.ofDigitChars 10 digits value))⟩ (offset + digits.length)
        (b :: rest) := by
  induction digits generalizing value offset with
  | nil =>
    have hdigit : b.isDigit = false := by
      by_contra h
      have hpart : isWordPart b = true := by
        simp [isWordPart, Char.isAlphanum, Bool.eq_true_of_not_eq_false h]
      rw [not_isWordPart_of_isBlank hb] at hpart
      cases hpart
    rw [List.nil_append, integer, if_neg (by simp [hdigit])]
    rfl
  | cons c digits ih =>
    obtain ⟨hc, hdigits⟩ := List.forall_mem_cons.1 hdigits
    rw [Nat.ofDigitChars_cons] at hmax ⊢
    have hle := Text.Decimal.le_ofDigitChars digits (10 * value + (c.toNat - '0'.toNat))
    rw [List.cons_append, integer, if_pos hc]
    dsimp only
    rw [if_pos (hle.trans hmax), ih (offset + 1) hdigits hmax, List.length_cons, Nat.add_assoc,
      Nat.add_comm 1]

theorem step_int {value : Word} (h : 0 ≤ value) :
    step offset ((Token.int value).spelling.toList ++ b :: rest) =
      .token ⟨offset, .int value⟩ (offset + Text.byteSize (Token.int value).spelling.toList)
        (b :: rest) := by
  have hnonneg : 0 ≤ value.toInt := Int64.le_iff_toInt_le.1 h
  have htext : (Token.int value).spelling.toList = Nat.toDigits 10 value.toInt.toNat := by
    rw [Token.spelling, Int.toString_eq_repr, Int.repr_eq_if, if_pos hnonneg,
      Nat.repr_eq_ofList_toDigits, String.toList_ofList]
  have hdigits : ∀ c ∈ Nat.toDigits 10 value.toInt.toNat, c.isDigit = true :=
    fun c hc => Nat.isDigit_of_mem_toDigits (by omega) (by omega) hc
  have hmax : value.toInt.toNat ≤ Int64.maxValue.toInt.toNat := by
    have hle := value.toInt_le
    have hvalue : Int64.maxValue.toInt = 2 ^ 63 - 1 := by decide
    omega
  have hpart : ∀ c ∈ Nat.toDigits 10 value.toInt.toNat, isWordPart c = true := fun c hc => by
    simp [isWordPart, Char.isAlphanum, hdigits c hc]
  have hvalue : Int64.ofNat value.toInt.toNat = value := by
    rw [← Int64.ofInt_eq_ofNat, Int.toNat_of_nonneg hnonneg, Int64.ofInt_toInt]
  have hread := integer_digits hb offset rest hdigits
    (by rw [Nat.ofDigitChars_ten_toDigits]; exact hmax) offset
  rw [Nat.ofDigitChars_ten_toDigits, hvalue] at hread
  obtain ⟨c, cs, hcons, hc⟩ := Text.Decimal.exists_toDigits_eq_cons value.toInt.toNat
  rw [htext, byteSize_of_isWordPart hpart]
  rw [hcons] at hpart hread ⊢
  have hc' := hpart c (List.mem_cons_self ..)
  rw [List.cons_append] at hread ⊢
  rw [step_of_not_gap (isBlank_of_isWordPart hc') fun h =>
    absurd h (ne_of_isWordPart hc' (by decide)), lexeme, symbol?_eq_none (.inl hc')]
  have hstart : isWordStart c = false := by
    by_contra h
    have h := toNat_of_isWordStart (Bool.eq_true_of_not_eq_false h)
    have hc := toNat_of_isDigit hc
    omega
  simp only [ne_of_isWordPart hc' (show isWordPart '"' = false by decide),
    ne_of_isWordPart hc' (show isWordPart '\'' = false by decide), hstart, hc, if_false, if_true]
  exact hread

omit hb in
theorem step_str {content : String} (h : '"' ∉ content.toList) :
    step offset ((Token.str content).spelling.toList ++ b :: rest) =
      .token ⟨offset, .str content⟩ (offset + Text.byteSize (Token.str content).spelling.toList)
        (b :: rest) := by
  have hplain : ∀ c ∈ content.toList, (c != '"') = true := fun c hc => by
    simpa using fun hquote : c = '"' => h (hquote ▸ hc)
  have htext : (Token.str content).spelling.toList = '"' :: (content.toList ++ ['"']) := by
    simp [Token.spelling]
  have hsplit : '"' :: (content.toList ++ ['"']) ++ b :: rest =
      '"' :: (content.toList ++ '"' :: b :: rest) := by simp
  have htake : (content.toList ++ '"' :: b :: rest).takeWhile (· != '"') = content.toList := by
    rw [List.takeWhile_append_of_pos hplain, List.takeWhile_cons_of_neg (by simp), List.append_nil]
  have hdrop : (content.toList ++ '"' :: b :: rest).dropWhile (· != '"') = '"' :: b :: rest := by
    rw [List.dropWhile_append_of_pos hplain, List.dropWhile_cons_of_neg (by simp)]
  have hsize : '"'.utf8Size = 1 := rfl
  rw [htext, hsplit, step_of_not_gap (by decide) (by simp), lexeme,
    symbol?_eq_none (.inr (.inl rfl))]
  simp only [if_true, quoted, htake, hdrop, String.ofList_toList, Text.byteSize_cons,
    Text.byteSize_append, Text.byteSize_nil, hsize]
  congr 1
  omega

omit hb in
theorem step_chr {byte : UInt8} (h : byte < 128) (hmark : byte ≠ 39) :
    step offset ((Token.chr byte).spelling.toList ++ b :: rest) =
      .token ⟨offset, .chr byte⟩ (offset + Text.byteSize (Token.chr byte).spelling.toList)
        (b :: rest) := by
  have hlt : byte.toNat < 128 := UInt8.lt_iff_toNat_lt.1 h
  have hnat : (Char.ofNat byte.toNat).toNat = byte.toNat := by
    rw [Char.ofNat, dif_pos (.inl (by omega))]
    rfl
  have hascii : isAscii (Char.ofNat byte.toNat) = true := by
    rw [isAscii, hnat]
    exact decide_eq_true hlt
  have hne : Char.ofNat byte.toNat ≠ '\'' := by
    intro heq
    rw [heq] at hnat
    exact hmark (UInt8.toNat_inj.1 hnat.symm)
  have hbyte : (Char.ofNat byte.toNat).toUInt8 = byte := by
    rw [Char.toUInt8, ← UInt8.toNat_inj, UInt32.toNat_toUInt8]
    rw [show (Char.ofNat byte.toNat).val.toNat = byte.toNat from hnat]
    omega
  have hsize : (Char.ofNat byte.toNat).utf8Size = 1 := by
    rw [Char.utf8Size_eq_one_iff, UInt32.le_iff_toNat_le]
    rw [show (Char.ofNat byte.toNat).val.toNat = byte.toNat from hnat]
    simp only [UInt32.reduceToNat]
    omega
  have hmarkSize : '\''.utf8Size = 1 := rfl
  rw [Token.spelling, String.toList_ofList, List.cons_append, List.cons_append, List.cons_append,
    List.nil_append, step_of_not_gap (by decide) (by simp), lexeme,
    symbol?_eq_none (.inr (.inr rfl))]
  simp [character, hascii, hne, hbyte, hsize, hmarkSize]

omit hb in
theorem byteSize_of_symbol? (h : t.symbol? = some text) :
    Text.byteSize text.toList = text.length := by
  cases t
  case id | keyword | int | str | chr => cases h
  all_goals
    cases h
    rfl

/-- An operator or a punctuation mark in front of a blank is not taken for the start of a longer
one. -/
theorem symbol?_append (h : t.symbol? = some text) :
    symbol? (text.toList ++ b :: rest) = some (t, text.length, b :: rest) := by
  have hequals : b ≠ '=' := by rintro rfl; exact absurd hb (by decide)
  have hless : b ≠ '<' := by rintro rfl; exact absurd hb (by decide)
  have hgreater : b ≠ '>' := by rintro rfl; exact absurd hb (by decide)
  have hminus : b ≠ '-' := by rintro rfl; exact absurd hb (by decide)
  have hplus : b ≠ '+' := by rintro rfl; exact absurd hb (by decide)
  cases t
  case id | keyword | int | str | chr => cases h
  all_goals
    cases h
    simp [symbol?, ← String.length_toList, hequals, hless, hgreater, hminus, hplus]

omit hb in
theorem exists_cons_of_symbol? (h : t.symbol? = some text) :
    ∃ c cs, text.toList = c :: cs ∧ Text.isBlank c = false ∧ (c = '/' → cs = []) := by
  cases t
  case id | keyword | int | str | chr => cases h
  all_goals
    cases h
    exact ⟨_, _, rfl, by decide, by decide⟩

theorem step_symbol (h : t.symbol? = some text) : step offset (text.toList ++ b :: rest) =
      .token ⟨offset, t⟩ (offset + Text.byteSize text.toList) (b :: rest) := by
  have hsymbol := symbol?_append hb rest h
  rw [byteSize_of_symbol? h]
  obtain ⟨c, cs, htext, hblank, hslash⟩ := exists_cons_of_symbol? h
  rw [htext, List.cons_append] at hsymbol ⊢
  rw [step_of_not_gap hblank, lexeme, hsymbol]
  rintro hc after hcomment
  rw [hslash hc, List.nil_append] at hcomment
  obtain ⟨rfl, -⟩ := List.cons.inj hcomment
  exact absurd hb (by decide)

/-- A spelling in front of a blank is read as its token. -/
theorem step_spelling (h : t.Spellable) : step offset (t.spelling.toList ++ b :: rest) =
      .token ⟨offset, t⟩ (offset + Text.byteSize t.spelling.toList) (b :: rest) := by
  cases t with
  | id name =>
    have hword := step_word hb offset rest h.1
    rwa [wordToken, h.2] at hword
  | keyword word =>
    have hspelling : IsWord word.spelling := by cases word <;> decide
    have hword := step_word hb offset rest hspelling
    rwa [wordToken, Keyword.ofSpelling?_spelling] at hword
  | int value => exact step_int hb offset rest h
  | str content => exact step_str offset rest h
  | chr byte => exact step_chr offset rest h.1 h.2
  | _ => exact step_symbol hb offset rest rfl

end

end Lexer

/-! ### Texts of tokens -/

/-- The text of tokens, with what stands behind each of them. -/
def spaced (parts : List (Token × String)) : String :=
  String.join (parts.map fun part => part.1.spelling ++ part.2)

theorem spaced_cons (t : Token) (gap : String) (parts : List (Token × String)) :
    spaced ((t, gap) :: parts) = t.spelling ++ gap ++ spaced parts := by
  rw [spaced, List.map_cons, String.join_cons, spaced]

theorem byteSize_toList (text : String) : Text.byteSize text.toList = text.utf8ByteSize := by
  have hlist : ∀ cs : List Char, Text.byteSize cs = String.utf8Len cs := fun cs => by
    induction cs with
    | nil => rfl
    | cons c cs ih => rw [Text.byteSize_cons, ih, String.utf8Len_cons, Nat.add_comm]
  rw [hlist, ← String.utf8ByteSize_ofList, String.ofList_toList]

open Lexer in
/-- Behind a gap, spelled tokens are read one after the other. -/
theorem run_spaced {parts : List (Token × String)}
    (h : ∀ part ∈ parts, part.1.Spellable ∧ Separator part.2.toList) (hgap : Gap gap)
    (offset : Nat) : run offset (gap ++ (spaced parts).toList) = .ok (parts.mapIdx fun i part =>
      ⟨offset + Text.byteSize gap + (spaced (parts.take i)).utf8ByteSize, part.1⟩) := by
  induction parts generalizing gap offset with
  | nil =>
    refine run_of_done ?_
    rw [step_append hgap]
    rfl
  | cons part parts ih =>
    obtain ⟨t, sep⟩ := part
    obtain ⟨⟨ht, hsep⟩, hparts⟩ := List.forall_mem_cons.1 h
    obtain ⟨b, rest, hrest, hb⟩ := hsep.exists_cons
    have hstep : step offset (gap ++ (spaced ((t, sep) :: parts)).toList) =
        .token ⟨offset + Text.byteSize gap, t⟩
          (offset + Text.byteSize gap + Text.byteSize t.spelling.toList)
          (sep.toList ++ (spaced parts).toList) := by
      rw [step_append hgap, spaced_cons, String.toList_append, String.toList_append,
        List.append_assoc, hrest, List.cons_append]
      exact step_spelling hb _ _ ht
    rw [run_of_token hstep, ih hparts hsep.gap, List.mapIdx_cons]
    simp only [Except.map, Except.ok.injEq, List.cons.injEq, List.take_zero]
    refine ⟨rfl, ?_⟩
    congr 1
    funext i part
    rw [List.take_succ_cons, spaced_cons, String.utf8ByteSize_append, String.utf8ByteSize_append,
      byteSize_toList, byteSize_toList]
    congr 1
    omega

open Lexer in
/-- A text that has blanks and comments behind the spelling of every token, blanks first, is read as
these tokens, each at the byte where its spelling starts. -/
theorem tokenize_spaced (parts : List (Token × String))
    (h : ∀ part ∈ parts, part.1.Spellable ∧ Separator part.2.toList) :
    tokenize (spaced parts) = .ok (parts.mapIdx fun i part =>
      ⟨(spaced (parts.take i)).utf8ByteSize, part.1⟩) := by
  have hrun := run_spaced h .nil 0
  simpa [tokenize] using hrun

/-- Tokens with a comment, a newline and a wide blank between them, and with characters of several
bytes. -/
def commented : List (Token × String) := [
  (.keyword .int, " "), (.id "n_1", " // the /first/ one\n\t"), (.assign, "\u2003"),
  (.int 9223372036854775807, " "), (.divide, "\n//\n"), (.str "/ñ/", "\u2003 "), (.chr 34, "\n")]

open Lexer in
theorem tokenize_spaced_commented :
    (∀ part ∈ commented, part.1.Spellable ∧ Separator part.2.toList) ∧
      tokenize (spaced commented) = .ok [⟨0, .keyword .int⟩, ⟨4, .id "n_1"⟩, ⟨28, .assign⟩,
        ⟨32, .int 9223372036854775807⟩, ⟨52, .divide⟩, ⟨57, .str "/ñ/"⟩, ⟨67, .chr 34⟩] := by
  have h : ∀ part ∈ commented, part.1.Spellable ∧ Separator part.2.toList := by
    have hfirst : '\n' ∉ " the /first/ one".toList := by decide
    simp only [commented, List.forall_mem_cons, List.not_mem_nil, false_implies, implies_true,
      and_true, Token.Spellable, true_and]
    refine ⟨⟨.blank rfl .nil, _, rfl, rfl⟩, ⟨by decide, ?_, _, rfl, rfl⟩,
      ⟨.blank rfl .nil, _, rfl, rfl⟩, ⟨by decide, .blank rfl .nil, _, rfl, rfl⟩,
      ⟨?_, _, rfl, rfl⟩, ⟨by decide, .blank rfl (.blank rfl .nil), _, rfl, rfl⟩,
      ⟨by decide, .blank rfl .nil, _, rfl, rfl⟩⟩
    · exact .blank rfl (.comment hfirst (.blank rfl .nil))
    · exact .blank rfl (.comment List.not_mem_nil .nil)
  exact ⟨h, (tokenize_spaced commented h).trans (by decide)⟩

end Firestorm
