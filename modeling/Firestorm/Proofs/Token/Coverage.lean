import Mathlib.Data.List.TakeWhile
import Firestorm.Proofs.Token.Spelling

/-!
# What a text consists of

A text that can be read is made of lexemes with gaps in front of them and a gap at its end. Each
lexeme spells its token and is the longest that starts where it does: no more of the text behind it
belongs to a lexeme or to the start of a comment.

## Main definitions

* `Token.Lexeme`, `Lexer.FinalGap`, `Lexer.Longest`, `Lexer.Covers`, `Lexer.Step.Describes`.

## Main results

* `Lexer.describes_step`.
* `tokenize_covers`: a text that can be read consists of the lexemes of its tokens, each the
  longest, and gaps.
-/

namespace Firestorm

/-- The texts that spell a token: its spelling, and for a number any digits that have its value. -/
inductive Token.Lexeme : Token → List Char → Prop
  | spelled {t : Token} (h : t.Spellable) : Lexeme t t.spelling.toList
  | number {digits : List Char} {value : Word} (hne : digits ≠ [])
    (hdigits : ∀ c ∈ digits, c.isDigit = true)
    (hvalue : (Nat.ofDigitChars 10 digits 0 : ℤ) = value.toInt) : Lexeme (.int value) digits

namespace Lexer

open Token

variable {c : Char} {text : String}

/-- Blanks and comments up to the end of a text, which ends the last comment if no newline does. -/
inductive FinalGap : List Char → Prop
  | closed {gap : List Char} (h : Gap gap) : FinalGap gap
  | comment {gap content : List Char} (h : Gap gap) (hcontent : '\n' ∉ content) :
    FinalGap (gap ++ '/' :: '/' :: content)

/-- A lexeme that the text behind it does not continue: no longer piece of the text is a lexeme or
starts with the mark of a comment, and no digit stands behind digits, also where they would give too
large a number. -/
structure Longest (w rest : List Char) : Prop where
  lexeme : ∀ d more, d :: more <+: rest → ∀ t, ¬ Lexeme t (w ++ d :: more)
  digits : (∀ c ∈ w, c.isDigit = true) → ∀ d ∈ rest.head?, d.isDigit = false
  comment : ¬ ['/', '/'] <+: w ++ rest

/-- A text that starts at an offset and consists of the lexemes of tokens, each with a gap in front
of it and at the offset of its token, and of a gap at its end. -/
inductive Covers : (offset : Nat) → List Char → List (Located Token) → Prop
  | done {offset cs} (h : FinalGap cs) : Covers offset cs []
  | token {offset gap w rest t tokens} (hgap : Gap gap) (hlexeme : Lexeme t w)
    (hlongest : Longest w rest) (hrest : Covers (offset + Text.byteSize (gap ++ w)) rest tokens) :
    Covers offset (gap ++ (w ++ rest)) (⟨offset + Text.byteSize gap, t⟩ :: tokens)

/-! ### Gaps -/

theorem skipGap_comment_of_notMem {cs : List Char} (h : '\n' ∉ cs) (offset : Nat) :
    skipGap true offset cs = (offset + Text.byteSize cs, []) := by
  induction cs generalizing offset with
  | nil => rfl
  | cons c cs ih =>
    obtain ⟨hc, hcs⟩ := not_or.1 (List.mem_cons.not.1 h)
    have hflag : (c != '\n') = true := by simpa using Ne.symm hc
    have hstep : skipGap true offset (c :: cs) = skipGap (c != '\n') (offset + c.utf8Size) cs := rfl
    rw [hstep, hflag, ih hcs, Text.byteSize_cons, Nat.add_assoc]

theorem Gap.append {gap more : List Char} (h : Gap gap) (hmore : Gap more) : Gap (gap ++ more) := by
  induction h with
  | nil => exact hmore
  | blank hc _ ih => exact .blank hc ih
  | comment hcontent _ ih => simpa using Gap.comment hcontent ih

theorem FinalGap.append {gap cs : List Char} (hgap : Gap gap) (h : FinalGap cs) :
    FinalGap (gap ++ cs) := by
  cases h with
  | closed h => exact .closed (hgap.append h)
  | comment h hcontent =>
    rw [← List.append_assoc]
    exact .comment (hgap.append h) hcontent

theorem step_of_finalGap {cs : List Char} (h : FinalGap cs) (offset : Nat) :
    step offset cs = .done := by
  cases h with
  | closed h =>
    rw [← List.append_nil cs, step_append h]
    rfl
  | @comment gap content h hcontent =>
    have hskip : skipGap false (offset + Text.byteSize gap) ('/' :: '/' :: content) =
        skipGap true (offset + Text.byteSize gap + 2) content := rfl
    rw [step_append h, step, hskip, skipGap_comment_of_notMem hcontent]

theorem step_of_gap {gap rest : List Char} (hgap : Gap gap) (hblank : Text.isBlank c = false)
    (hslash : ¬ ['/', '/'] <+: c :: rest) (offset : Nat) :
    step offset (gap ++ c :: rest) = lexeme (offset + Text.byteSize gap) c rest := by
  rw [step_append hgap, step_of_not_gap hblank]
  rintro rfl after rfl
  exact hslash ⟨after, rfl⟩

/-- The gap at the start of a text ends where the text does, or where a lexeme starts. -/
theorem exists_gap (cs : List Char) :
    FinalGap cs ∨ ∃ gap c rest, cs = gap ++ c :: rest ∧ Gap gap ∧ Text.isBlank c = false ∧
      ¬ ['/', '/'] <+: c :: rest := by
  induction hn : cs.length using Nat.strong_induction_on generalizing cs with
  | _ n ih =>
    -- what a blank or a comment in front adds to the gap behind it
    have hfront : ∀ front rest, Gap front → front ≠ [] → cs = front ++ rest →
        FinalGap cs ∨ ∃ gap c rest, cs = gap ++ c :: rest ∧ Gap gap ∧ Text.isBlank c = false ∧
          ¬ ['/', '/'] <+: c :: rest := by
      rintro front rest hgap hne rfl
      have hlt : rest.length < n := by
        rw [← hn, List.length_append]
        have := List.length_pos_iff.2 hne
        omega
      rcases ih rest.length hlt rest rfl with hfinal | ⟨gap, c, behind, rfl, hrest, hc⟩
      · exact .inl (hfinal.append hgap)
      · exact .inr ⟨front ++ gap, c, behind, by simp, hgap.append hrest, hc⟩
    cases cs with
    | nil => exact .inl (.closed .nil)
    | cons c cs =>
      by_cases hblank : Text.isBlank c = true
      · exact hfront [c] cs (.blank hblank .nil) (by simp) rfl
      · by_cases hslash : ['/', '/'] <+: c :: cs
        · obtain ⟨content, hcontent⟩ := hslash
          rw [← hcontent] at hfront ⊢
          by_cases hends : '\n' ∈ content
          · obtain ⟨line, rest, rfl, hline⟩ := List.eq_append_cons_of_mem hends
            exact hfront _ rest (.comment hline .nil) (by simp) (by simp)
          · exact .inl (FinalGap.comment .nil hends)
        · exact .inr ⟨[], c, cs, rfl, .nil, by simpa using hblank, hslash⟩

/-! ### Lexemes by their first character -/

/-- What follows the first character of a lexeme. -/
def Continues (c : Char) (cs : List Char) : Prop :=
  if isWordStart c then ∀ d ∈ cs, isWordPart d = true
  else if c.isDigit then ∀ d ∈ cs, d.isDigit = true
  else if c = '"' then ∃ content, cs = content ++ ['"'] ∧ '"' ∉ content
  else if c = '\'' then cs.length = 2
  else ∃ t text, Token.symbol? t = some text ∧ text.toList = c :: cs

theorem isWordPart_of_isDigit (h : c.isDigit = true) : isWordPart c = true := by
  simp [isWordPart, Char.isAlphanum, h]

theorem not_isWordStart_of_isDigit (h : c.isDigit = true) : isWordStart c = false := by
  by_contra hstart
  have hstart := toNat_of_isWordStart (Bool.eq_true_of_not_eq_false hstart)
  have hdigit := toNat_of_isDigit h
  omega

/-- The first character of an operator or a punctuation mark is neither part of a word nor the mark
of a literal. -/
theorem head_of_symbol? {t : Token} (h : t.symbol? = some text) {cs : List Char}
    (htext : text.toList = c :: cs) : isWordPart c = false ∧ c ≠ '"' ∧ c ≠ '\'' := by
  cases t
  case id | keyword | int | str | chr => cases h
  all_goals
    cases h
    cases htext
    decide

theorem continues_of_word {name : String} (h : IsWord name) {cs : List Char}
    (hname : name.toList = c :: cs) : Continues c cs := by
  obtain ⟨c', cs', hname', hc, hcs⟩ := h
  cases hname.symm.trans hname'
  rw [Continues, if_pos hc]
  exact hcs

theorem continues_of_digits {cs : List Char} (h : ∀ d ∈ c :: cs, d.isDigit = true) :
    Continues c cs := by
  obtain ⟨hc, hcs⟩ := List.forall_mem_cons.1 h
  rw [Continues, if_neg (by simp [not_isWordStart_of_isDigit hc]), if_pos hc]
  exact hcs

theorem continues_iff_symbol {t : Token} (h : t.symbol? = some text) {ws cs : List Char}
    (htext : text.toList = c :: ws) :
    Continues c cs ↔ ∃ t text, Token.symbol? t = some text ∧ text.toList = c :: cs := by
  obtain ⟨hpart, hquote, hmark⟩ := head_of_symbol? h htext
  have hstart : isWordStart c = false := by
    by_contra hstart
    simp [isWordPart_of_isWordStart (Bool.eq_true_of_not_eq_false hstart)] at hpart
  have hdigit : c.isDigit = false := by
    by_contra hdigit
    simp [isWordPart_of_isDigit (Bool.eq_true_of_not_eq_false hdigit)] at hpart
  simp only [Continues, hstart, hdigit, hquote, hmark, if_false, Bool.false_eq_true]

/-- The digits of a number that is not negative. -/
theorem isDigit_of_mem_spelling {value : Word} (h : 0 ≤ value) :
    ∀ c ∈ (Token.int value).spelling.toList, c.isDigit = true := by
  have hnonneg : 0 ≤ value.toInt := Int64.le_iff_toInt_le.1 h
  rw [Token.spelling, Int.toString_eq_repr, Int.repr_eq_if, if_pos hnonneg,
    Nat.repr_eq_ofList_toDigits, String.toList_ofList]
  exact fun c hc => Nat.isDigit_of_mem_toDigits (by omega) (by omega) hc

theorem spelling_of_symbol? {t : Token} (h : t.symbol? = some text) : t.spelling = text := by
  cases t
  case id | keyword | int | str | chr => cases h
  all_goals
    cases h
    rfl

theorem spellable_of_symbol? {t : Token} (h : t.symbol? = some text) : t.Spellable := by
  cases t
  case id | keyword | int | str | chr => cases h
  all_goals trivial

/-- The first character of a lexeme says how it goes on. -/
theorem continues_of_lexeme {t : Token} {cs : List Char} (h : Lexeme t (c :: cs)) :
    Continues c cs := by
  generalize hw : c :: cs = w at h
  cases h with
  | number _ hdigits _ => exact continues_of_digits (hw ▸ hdigits)
  | spelled h =>
    cases hsymbol : t.symbol? with
    | some text =>
      rw [spelling_of_symbol? hsymbol] at hw
      exact (continues_iff_symbol hsymbol hw.symm).2 ⟨t, text, hsymbol, hw.symm⟩
    | none =>
      cases t with
      | id name => exact continues_of_word h.1 hw.symm
      | keyword word => exact continues_of_word (by cases word <;> decide) hw.symm
      | int value => exact continues_of_digits (hw ▸ isDigit_of_mem_spelling h)
      | str content =>
        obtain ⟨rfl, rfl⟩ : c = '"' ∧ cs = content.toList ++ ['"'] := by
          simpa [Token.spelling] using hw
        exact ⟨content.toList, rfl, h⟩
      | chr byte =>
        obtain ⟨rfl, rfl⟩ : c = '\'' ∧ cs = [Char.ofNat byte.toNat, '\''] := by
          simpa [Token.spelling] using hw
        exact rfl
      | _ => cases hsymbol

/-! ### The longest lexeme -/

section

variable {c : Char} {cs rest : List Char}
variable {d : Char}

/-- A lexeme that does not start with a digit is the longest if its first character forbids more. -/
theorem Longest.of_continues (hdigit : c.isDigit = false)
    (hslash : ¬ ['/', '/'] <+: c :: (cs ++ rest))
    (h : ∀ d more, d :: more <+: rest → ¬ Continues c (cs ++ d :: more)) :
    Longest (c :: cs) rest where
  lexeme d more hmore _ hlexeme := h d more hmore (continues_of_lexeme hlexeme)
  digits hdigits := by
    rw [hdigits c (List.mem_cons_self ..)] at hdigit
    cases hdigit
  comment := hslash

theorem not_comment_of_ne (hc : c ≠ '/') (cs : List Char) : ¬ ['/', '/'] <+: c :: cs := by
  rintro ⟨_, h⟩
  exact hc (List.cons.inj h).1.symm

theorem mem_head?_of_starts {more : List Char} (h : d :: more <+: rest) : d ∈ rest.head? := by
  obtain ⟨_, rfl⟩ := h
  rfl

theorem longest_word (hc : isWordStart c = true) (hrest : ∀ d ∈ rest.head?, isWordPart d = false) :
    Longest (c :: cs) rest := by
  have hdigit : c.isDigit = false := by
    by_contra hdigit
    rw [not_isWordStart_of_isDigit (Bool.eq_true_of_not_eq_false hdigit)] at hc
    cases hc
  have hslash : c ≠ '/' := ne_of_isWordPart (isWordPart_of_isWordStart hc) (by decide)
  refine .of_continues hdigit (not_comment_of_ne hslash _) fun d more hmore hcontinues => ?_
  rw [Continues, if_pos hc] at hcontinues
  have hd := hcontinues d (by simp)
  rw [hrest d (mem_head?_of_starts hmore)] at hd
  cases hd

theorem longest_digits (hc : c.isDigit = true) (hrest : ∀ d ∈ rest.head?, d.isDigit = false) :
    Longest (c :: cs) rest where
  lexeme d more hmore t hlexeme := by
    have hcontinues := continues_of_lexeme hlexeme
    rw [Continues, if_neg (by simp [not_isWordStart_of_isDigit hc]), if_pos hc] at hcontinues
    have hd := hcontinues d (by simp)
    rw [hrest d (mem_head?_of_starts hmore)] at hd
    cases hd
  digits _ := hrest
  comment := not_comment_of_ne (ne_of_isWordPart (isWordPart_of_isDigit hc) (by decide)) _

theorem longest_string {content : List Char} : Longest ('"' :: (content ++ ['"'])) rest := by
  refine .of_continues (by decide) (not_comment_of_ne (by decide) _) fun d more _ hcontinues => ?_
  obtain ⟨content', hcontent, hquote⟩ : ∃ content',
      content ++ ['"'] ++ d :: more = content' ++ ['"'] ∧
    '"' ∉ content' := hcontinues
  have hinside : content' = content ++ '"' :: (d :: more).dropLast := by
    have hlast := congrArg List.dropLast hcontent
    rw [List.dropLast_concat, List.dropLast_append_of_ne_nil (List.cons_ne_nil _ _)] at hlast
    simpa using hlast.symm
  exact hquote (by simp [hinside])

theorem longest_character : Longest ['\'', d, '\''] rest := by
  refine .of_continues (by decide) (not_comment_of_ne (by decide) _) fun e more _ hcontinues => ?_
  have hlength : ([d, '\''] ++ e :: more).length = 2 := hcontinues
  simp at hlength

/-! ### Operators and punctuation marks -/

theorem length_of_symbol? {t : Token} (h : t.symbol? = some text) :
    text.toList.length = 1 ∨ text.toList.length = 2 := by
  cases t
  case id | keyword | int | str | chr => cases h
  all_goals
    cases h
    decide

/-- Two characters are preferred over one. -/
theorem symbol?_pair {t : Token} (h : t.symbol? = some text) (htext : text.toList = [c, d])
    (rest : List Char) : symbol? (c :: d :: rest) = some (t, 2, rest) := by
  cases t
  case id | keyword | int | str | chr => cases h
  all_goals
    cases h
    cases htext
  all_goals rfl

theorem symbol?_eq_some {t : Token} {width : Nat} (h : symbol? cs = some (t, width, rest)) :
    ∃ text, t.symbol? = some text ∧ cs = text.toList ++ rest ∧ width = text.toList.length := by
  unfold symbol? at h
  split at h
  case h_31 => cases h
  all_goals
    cases h
    exact ⟨_, rfl, rfl, rfl⟩

/-- The operator or punctuation mark that is read is the longest. -/
theorem longest_symbol {t : Token} {width : Nat} (h : symbol? (c :: cs) = some (t, width, rest))
    (hslash : ¬ ['/', '/'] <+: c :: cs) :
    ∃ text, t.symbol? = some text ∧ c :: cs = text.toList ++ rest ∧
      width = Text.byteSize text.toList ∧ Longest text.toList rest := by
  obtain ⟨text, hsymbol, hcs, hwidth⟩ := symbol?_eq_some h
  refine ⟨text, hsymbol, hcs, by rw [byteSize_of_symbol? hsymbol, hwidth, String.length_toList], ?_⟩
  obtain ⟨c', ws, htext, -, -⟩ := exists_cons_of_symbol? hsymbol
  rw [htext] at hcs hwidth ⊢
  obtain ⟨rfl, rfl⟩ := List.cons.inj hcs
  have hdigit : c.isDigit = false := by
    by_contra hdigit
    have hpart := isWordPart_of_isDigit (Bool.eq_true_of_not_eq_false hdigit)
    rw [(head_of_symbol? hsymbol htext).1] at hpart
    cases hpart
  refine .of_continues hdigit hslash fun d more hmore hcontinues => ?_
  -- a longer one would have two characters, and then it would have been read
  obtain ⟨t', text', hsymbol', htext'⟩ := (continues_iff_symbol hsymbol htext).1 hcontinues
  have hlength := length_of_symbol? hsymbol'
  rw [htext', List.length_cons, List.length_append, List.length_cons] at hlength
  obtain ⟨hws, hone⟩ : ws.length = 0 ∧ more.length = 0 := by omega
  obtain rfl := List.length_eq_zero_iff.1 hws
  obtain rfl := List.length_eq_zero_iff.1 hone
  obtain ⟨rest, rfl⟩ := hmore
  have hread : symbol? (c :: d :: rest) = some (t, width, d :: rest) := h
  rw [symbol?_pair hsymbol' htext' rest] at hread
  cases hread

end

/-! ### Steps -/

/-- What a lexeme says about the text that it is taken from. -/
def Step.Reads (start : Nat) (cs : List Char) : Step → Prop
  | .done => False
  | .token t next rest =>
    t.offset = start ∧ ∃ w, cs = w ++ rest ∧ Lexeme t.value w ∧ Longest w rest ∧
    next = start + Text.byteSize w
  | .fault e rest => ∃ front, cs = front ++ rest ∧ e.offset = start + Text.byteSize front

theorem utf8Size_of_isDigit (h : c.isDigit = true) : c.utf8Size = 1 :=
  utf8Size_of_isWordPart (isWordPart_of_isDigit h)

/-- The digits of an integer literal, behind digits that have been read. -/
theorem integer_cases (start offset : Nat) {value : Nat}
    (hvalue : value ≤ Int64.maxValue.toInt.toNat) (cs : List Char) :
    ∃ digits rest, cs = digits ++ rest ∧ (∀ c ∈ digits, c.isDigit = true) ∧
      ((integer start value offset cs =
          .token ⟨start, .int (Int64.ofNat (Nat.ofDigitChars 10 digits value))⟩
            (offset + Text.byteSize digits) rest ∧
        Nat.ofDigitChars 10 digits value ≤ Int64.maxValue.toInt.toNat ∧ ∀ d ∈ rest.head?,
        d.isDigit = false) ∨
      integer start value offset cs =
      .fault ⟨offset + Text.byteSize digits, .intOverflow⟩ rest) := by
  induction cs generalizing value offset with
  | nil => exact ⟨[], [], rfl, List.forall_mem_nil _, .inl ⟨rfl, hvalue, by simp⟩⟩
  | cons c cs ih =>
    by_cases hc : c.isDigit = true
    · by_cases hnext : 10 * value + (c.toNat - '0'.toNat) ≤ Int64.maxValue.toInt.toNat
      · obtain ⟨digits, rest, rfl, hdigits, hread⟩ := ih (offset + 1) hnext
        refine ⟨c :: digits, rest, rfl, List.forall_mem_cons.2 ⟨hc, hdigits⟩, ?_⟩
        rw [integer, if_pos hc]
        dsimp only
        rw [if_pos hnext, Nat.ofDigitChars_cons, Text.byteSize_cons, utf8Size_of_isDigit hc,
          ← Nat.add_assoc]
        exact hread
      · refine ⟨[], c :: cs, rfl, List.forall_mem_nil _, .inr ?_⟩
        rw [integer, if_pos hc]
        dsimp only
        rw [if_neg hnext]
        rfl
    · refine ⟨[], c :: cs, rfl, List.forall_mem_nil _, .inl ⟨?_, hvalue, by simpa using hc⟩⟩
      rw [integer, if_neg hc]
      rfl

section

variable (start : Nat) (c : Char) (cs : List Char)

theorem reads_integer {c : Char} (hc : c.isDigit = true) :
    (integer start 0 start (c :: cs)).Reads start (c :: cs) := by
  obtain ⟨digits, rest, hcs, hdigits, ⟨hread, hmax, hrest⟩ | hread⟩ :=
    integer_cases start start (Nat.zero_le _) (c :: cs)
  · rw [hread]
    cases digits with
    | nil =>
      obtain rfl : c :: cs = rest := hcs
      rw [hrest c rfl] at hc
      cases hc
    | cons d digits =>
      have hlimit : Int64.maxValue.toInt.toNat = 2 ^ 63 - 1 := by decide
      have hvalue := Int64.toInt_ofNat_of_lt (n := Nat.ofDigitChars 10 (d :: digits) 0) (by omega)
      exact ⟨rfl, d :: digits, hcs, .number (List.cons_ne_nil _ _) hdigits hvalue.symm,
        longest_digits (hdigits d (List.mem_cons_self ..)) hrest, rfl⟩
  · rw [hread]
    exact ⟨digits, hcs, rfl⟩

theorem reads_quoted : (quoted start cs).Reads start ('"' :: cs) := by
  have hsplit := (List.takeWhile_append_dropWhile (p := (· != '"')) (l := cs)).symm
  have hplain : '"' ∉ cs.takeWhile (· != '"') :=
    fun hmem => by simpa using List.mem_takeWhile_imp hmem
  have hsize : '"'.utf8Size = 1 := rfl
  unfold quoted
  dsimp only
  cases hdrop : cs.dropWhile (· != '"') with
  | nil =>
    rw [hdrop, List.append_nil] at hsplit
    refine ⟨'"' :: cs.takeWhile (· != '"'), by rw [List.append_nil, ← hsplit], ?_⟩
    rw [Text.byteSize_cons, hsize, Nat.add_assoc]
  | cons d rest =>
    obtain rfl : d = '"' := by
      have hhead := List.head?_dropWhile_not (p := (· != '"')) (l := cs)
      rw [hdrop] at hhead
      simpa using hhead
    have hlexeme := Lexeme.spelled (t := .str (String.ofList (cs.takeWhile (· != '"'))))
      (by rw [Spellable, String.toList_ofList]; exact hplain)
    have htext : (Token.str (String.ofList (cs.takeWhile (· != '"')))).spelling.toList =
        '"' :: (cs.takeWhile (· != '"') ++ ['"']) := by simp [Token.spelling]
    rw [htext] at hlexeme
    rw [hdrop] at hsplit
    refine ⟨rfl, _, ?_, hlexeme, longest_string, ?_⟩
    · rw [List.cons_append, List.append_assoc, List.singleton_append, ← hsplit]
    · simp only [Text.byteSize_cons, Text.byteSize_append, Text.byteSize_nil, hsize]
      omega

theorem utf8Size_of_isAscii {c : Char} (h : isAscii c = true) : c.utf8Size = 1 := by
  have hlt : c.val.toNat < 128 := of_decide_eq_true h
  rw [Char.utf8Size_eq_one_iff, UInt32.le_iff_toNat_le]
  simp only [UInt32.reduceToNat]
  omega

theorem lexeme_chr {c : Char} (h : isAscii c = true) (hmark : c ≠ '\'') :
    Lexeme (.chr c.toUInt8) ['\'', c, '\''] := by
  have hlt : c.toNat < 128 := of_decide_eq_true h
  have hbyte : c.toUInt8.toNat = c.toNat := by
    rw [Char.toUInt8, UInt32.toNat_toUInt8]
    exact Nat.mod_eq_of_lt (show c.toNat < 2 ^ 8 by omega)
  have hspellable : (Token.chr c.toUInt8).Spellable := by
    refine ⟨UInt8.lt_iff_toNat_lt.2 (hbyte ▸ hlt), fun heq => hmark ?_⟩
    have hcode : c.toNat = '\''.toNat := hbyte.symm.trans (congrArg UInt8.toNat heq)
    exact Char.toNat_inj.1 hcode
  have hlexeme := Lexeme.spelled hspellable
  rwa [Token.spelling, String.toList_ofList, hbyte, Char.ofNat_toNat] at hlexeme

theorem reads_character : (character start cs).Reads start ('\'' :: cs) := by
  have hsize : '\''.utf8Size = 1 := rfl
  cases cs with
  | nil => exact ⟨['\''], rfl, rfl⟩
  | cons c cs =>
    unfold character
    dsimp only
    by_cases hc : (isAscii c && c != '\'') = true
    · rw [if_pos hc]
      rw [Bool.and_eq_true, bne_iff_ne] at hc
      have hbytes := utf8Size_of_isAscii hc.1
      split
      · refine ⟨rfl, _, rfl, lexeme_chr hc.1 hc.2, longest_character, ?_⟩
        simp [hbytes, hsize]
      · refine ⟨['\'', c], rfl, ?_⟩
        simp [hbytes, hsize]
    · rw [if_neg hc]
      exact ⟨['\''], rfl, rfl⟩

theorem lexeme_wordToken {w : List Char} (h : IsWord (String.ofList w)) :
    Lexeme (wordToken (String.ofList w)) w := by
  unfold wordToken
  cases hkeyword : Keyword.ofSpelling? (String.ofList w) with
  | none =>
    have hlexeme := Lexeme.spelled (t := .id (String.ofList w)) ⟨h, hkeyword⟩
    rwa [Token.spelling, String.toList_ofList] at hlexeme
  | some word =>
    have hspelling : word.spelling = String.ofList w := by simpa using List.find?_some hkeyword
    have hlexeme := Lexeme.spelled (t := .keyword word) trivial
    rwa [Token.spelling, hspelling, String.toList_ofList] at hlexeme

theorem reads_word {c : Char} (hc : isWordStart c = true) :
    (Step.token ⟨start, wordToken (String.ofList (c :: cs.takeWhile isWordPart))⟩
      (start + (c :: cs.takeWhile isWordPart).length) (cs.dropWhile isWordPart)).Reads start
    (c :: cs) := by
  have hparts : ∀ d ∈ cs.takeWhile isWordPart, isWordPart d = true :=
    fun d => List.mem_takeWhile_imp
  have hword : IsWord (String.ofList (c :: cs.takeWhile isWordPart)) :=
    ⟨c, _, String.toList_ofList, hc, hparts⟩
  have hsize := byteSize_of_isWordPart hword.isWordPart
  rw [String.toList_ofList] at hsize
  refine ⟨rfl, c :: cs.takeWhile isWordPart, ?_, lexeme_wordToken hword,
    longest_word hc ?_, by rw [hsize]⟩
  · rw [List.cons_append, List.takeWhile_append_dropWhile]
  · intro d hd
    have hhead := List.head?_dropWhile_not (p := isWordPart) (l := cs)
    rw [Option.mem_def.1 hd] at hhead
    simpa using hhead

/-- A lexeme or a fault describes the text it is taken from. -/
theorem reads_lexeme (hslash : ¬ ['/', '/'] <+: c :: cs) :
    (lexeme start c cs).Reads start (c :: cs) := by
  unfold lexeme
  split
  · next t width rest hsymbol =>
    obtain ⟨text, htext, hcs, rfl, hlongest⟩ := longest_symbol hsymbol hslash
    have hlexeme := Lexeme.spelled (spellable_of_symbol? htext)
    rw [spelling_of_symbol? htext] at hlexeme
    exact ⟨rfl, text.toList, hcs, hlexeme, hlongest, rfl⟩
  · split_ifs with hquote hmark hstart hdigit
    · subst hquote
      exact reads_quoted start cs
    · subst hmark
      exact reads_character start cs
    · exact reads_word start cs hstart
    · exact reads_integer start cs hdigit
    · exact ⟨[], rfl, rfl⟩

end

/-- What a step says about the text that it is taken from. -/
def Step.Describes (offset : Nat) (cs : List Char) : Step → Prop
  | .done => FinalGap cs
  | .token t next rest =>
    ∃ gap w, cs = gap ++ (w ++ rest) ∧ Gap gap ∧ Lexeme t.value w ∧ Longest w rest ∧
    t.offset = offset + Text.byteSize gap ∧ next = offset + Text.byteSize (gap ++ w)
  | .fault e rest => ∃ front, cs = front ++ rest ∧ e.offset = offset + Text.byteSize front

/-- Every step describes the text that it is taken from. -/
theorem describes_step (offset : Nat) (cs : List Char) : (step offset cs).Describes offset cs := by
  rcases exists_gap cs with hfinal | ⟨gap, c, rest, rfl, hgap, hblank, hslash⟩
  · rw [step_of_finalGap hfinal]
    exact hfinal
  · have hread := reads_lexeme (offset + Text.byteSize gap) c rest hslash
    rw [step_of_gap hgap hblank hslash]
    cases hlexeme : lexeme (offset + Text.byteSize gap) c rest with
    | done =>
      rw [hlexeme] at hread
      exact hread.elim
    | token t next behind =>
      rw [hlexeme] at hread
      obtain ⟨hoffset, w, hw, ht, hlongest, hnext⟩ := hread
      refine ⟨gap, w, by rw [hw], hgap, ht, hlongest, hoffset, ?_⟩
      rw [hnext, Text.byteSize_append, Nat.add_assoc]
    | fault e behind =>
      rw [hlexeme] at hread
      obtain ⟨front, hfront, hoffset⟩ := hread
      refine ⟨gap ++ front, by rw [hfront, List.append_assoc], ?_⟩
      rw [hoffset, Text.byteSize_append, Nat.add_assoc]

/-- The faults of a text that has been read. -/
def faults : Except (List (Located LexError)) (List (Located Token)) → List (Located LexError)
  | .ok _ => []
  | .error errors => errors

theorem run_of_fault {offset : Nat} {cs rest : List Char} {e : Located LexError}
    (h : step offset cs = .fault e rest) :
    run offset cs = .error
      (e :: faults (run (skipLine e.offset rest).1 (skipLine e.offset rest).2)) := by
  rw [run]
  split
  · next hstep => simp [hstep] at h
  · next hstep => simp [hstep] at h
  · next hstep =>
    rw [hstep] at h
    cases h
    cases run (skipLine e.offset rest).1 (skipLine e.offset rest).2 <;> rfl

/-- A run that succeeds covers its text. -/
theorem covers_of_run {offset : Nat} {cs : List Char} {tokens : List (Located Token)}
    (h : run offset cs = .ok tokens) : Covers offset cs tokens := by
  induction hn : cs.length using Nat.strong_induction_on generalizing offset cs tokens with
  | _ n ih =>
    have hdescribes := describes_step offset cs
    cases hstep : step offset cs with
    | done =>
      rw [run_of_done hstep] at h
      cases h
      rw [hstep] at hdescribes
      exact .done hdescribes
    | token t next rest =>
      rw [run_of_token hstep, Fallible.except_map_eq_ok] at h
      obtain ⟨tokens, hrest, rfl⟩ := h
      have hlt := rest_lt_of_step hstep
      rw [hstep] at hdescribes
      obtain ⟨gap, w, rfl, hgap, hlexeme, hlongest, hoffset, rfl⟩ := hdescribes
      obtain ⟨o, t⟩ := t
      cases hoffset
      exact .token hgap hlexeme hlongest (ih rest.length (hn ▸ hlt) hrest rfl)
    | fault e rest =>
      rw [run_of_fault hstep] at h
      cases h

end Lexer

/-- A text that can be read consists of the lexemes of its tokens, each the longest that starts
where it does and at the offset of its token, with a gap of blanks and comments in front of each and
a gap at the end. -/
theorem tokenize_covers {text : String} {tokens : List (Located Token)}
    (h : tokenize text = .ok tokens) : Lexer.Covers 0 text.toList tokens :=
  Lexer.covers_of_run h

/-- A number with zeros in front, operators without blanks, and a comment that the end of the text
ends. -/
theorem tokenize_covers_unspaced :
    tokenize "n--=>007/ \"ñ\"//é" = .ok [⟨0, .id "n"⟩, ⟨1, .decrement⟩, ⟨3, .assign⟩, ⟨4, .greater⟩,
        ⟨5, .int 7⟩, ⟨8, .divide⟩, ⟨10, .str "ñ"⟩] ∧
      Lexer.Covers 0 "n--=>007/ \"ñ\"//é".toList [⟨0, .id "n"⟩, ⟨1, .decrement⟩, ⟨3, .assign⟩,
        ⟨4, .greater⟩, ⟨5, .int 7⟩, ⟨8, .divide⟩, ⟨10, .str "ñ"⟩] := by
  have h : tokenize "n--=>007/ \"ñ\"//é" =
      .ok [⟨0, .id "n"⟩, ⟨1, .decrement⟩, ⟨3, .assign⟩, ⟨4, .greater⟩,
      ⟨5, .int 7⟩, ⟨8, .divide⟩, ⟨10, .str "ñ"⟩] := by
    decide +kernel
  exact ⟨h, tokenize_covers h⟩

end Firestorm
