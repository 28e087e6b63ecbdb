import Firestorm.Text.Blank
import Firestorm.Text.Utf8
import Firestorm.Token

/-!
# From text to tokens

A text is read from left to right. Blanks and line comments separate lexemes; each lexeme is the
longest one that starts where the gap before it ends. A fault is reported at the character that
cannot continue the lexeme, the rest of its line is skipped, and reading goes on with the next line,
so that one pass reports every fault. A text with a fault yields no tokens.

## Main definitions

* `LexError`, `Lexer.Step`, `Lexer.step`, `tokenize`.

## Main results

* `Lexer.rest_lt_of_step`: every lexeme and every fault uses up part of the text, which is why
  reading ends.
-/

namespace Firestorm

/-- The faults of a text. -/
inductive LexError
  | badChar (c : Char)
  | intOverflow
  | unterminatedString
  | badCharLiteral
deriving Repr, DecidableEq, Inhabited

namespace LexError

/-- The wording of a fault. -/
def message : LexError → String
  | badChar c => s!"Bad character {Text.quoteChar c} in input stream"
  | intOverflow => s!"Integer literal overflow, valid range is [0, {Int64.maxValue.toInt}]"
  | unterminatedString => "Unterminated string literal"
  | badCharLiteral => "Character literals must contain exactly one byte"

end LexError

namespace Lexer

/-- Letters and the underscore begin a word. -/
def isWordStart (c : Char) : Bool :=
  c.isAlpha || c == '_'

/-- Letters, digits and the underscore continue a word. -/
def isWordPart (c : Char) : Bool :=
  c.isAlphanum || c == '_'

/-- A character of one byte. -/
def isAscii (c : Char) : Bool :=
  c.toNat < 128

/-- What stands behind a gap: nothing, a token with the text behind it, or a fault with the text
that begins at the offending character. -/
inductive Step
  | done
  | token (token : Located Token) (offset : Nat) (rest : List Char)
  | fault (error : Located LexError) (rest : List Char)
deriving Repr, DecidableEq

/-- The text behind the blanks and comments at its start, with its offset. The flag tells whether
the text starts inside a comment. -/
def skipGap : (comment : Bool) → (offset : Nat) → List Char → Nat × List Char
  | _, offset, [] => (offset, [])
  | true, offset, c :: cs => skipGap (c != '\n') (offset + c.utf8Size) cs
  | false, offset, '/' :: '/' :: cs => skipGap true (offset + 2) cs
  | false, offset, c :: cs =>
    if Text.isBlank c then skipGap false (offset + c.utf8Size) cs else (offset, c :: cs)

/-- The text behind the first newline, with its offset. -/
def skipLine : (offset : Nat) → List Char → Nat × List Char
  | offset, [] => (offset, [])
  | offset, c :: cs =>
    if c = '\n' then (offset + 1, cs) else skipLine (offset + c.utf8Size) cs

/-- The operator or punctuation mark at the start of a text, preferring two characters over one. -/
def symbol? : List Char → Option (Token × Nat × List Char)
  | ',' :: cs => some (.comma, 1, cs)
  | ';' :: cs => some (.semicolon, 1, cs)
  | '(' :: cs => some (.openParen, 1, cs)
  | ')' :: cs => some (.closeParen, 1, cs)
  | '\x7b' :: cs => some (.openCurly, 1, cs)
  | '\x7d' :: cs => some (.closeCurly, 1, cs)
  | '[' :: cs => some (.openSquare, 1, cs)
  | ']' :: cs => some (.closeSquare, 1, cs)
  | '*' :: cs => some (.times, 1, cs)
  | '%' :: cs => some (.modulo, 1, cs)
  | '~' :: cs => some (.bitNot, 1, cs)
  | '&' :: cs => some (.bitAnd, 1, cs)
  | '|' :: cs => some (.bitOr, 1, cs)
  | '^' :: cs => some (.bitXor, 1, cs)
  | '/' :: cs => some (.divide, 1, cs)
  | '=' :: '=' :: cs => some (.equals, 2, cs)
  | '=' :: cs => some (.assign, 1, cs)
  | '!' :: '=' :: cs => some (.notEquals, 2, cs)
  | '!' :: cs => some (.not, 1, cs)
  | '<' :: '=' :: cs => some (.lessEquals, 2, cs)
  | '<' :: '<' :: cs => some (.shiftLeft, 2, cs)
  | '<' :: cs => some (.less, 1, cs)
  | '>' :: '=' :: cs => some (.greaterEquals, 2, cs)
  | '>' :: '>' :: cs => some (.shiftRight, 2, cs)
  | '>' :: cs => some (.greater, 1, cs)
  | '-' :: '>' :: cs => some (.arrow, 2, cs)
  | '-' :: '-' :: cs => some (.decrement, 2, cs)
  | '-' :: cs => some (.minus, 1, cs)
  | '+' :: '+' :: cs => some (.increment, 2, cs)
  | '+' :: cs => some (.plus, 1, cs)
  | _ => none

/-- The token of a word: a keyword if it is reserved, else an identifier. -/
def wordToken (text : String) : Token :=
  match Keyword.ofSpelling? text with
  | some word => .keyword word
  | none => .id text

/-- The integer literal whose digits so far have the given value. The first digit that takes the
value beyond the largest word is a fault. -/
def integer (start : Nat) : (value offset : Nat) → List Char → Step
  | value, offset, [] => .token ⟨start, .int (Int64.ofNat value)⟩ offset []
  | value, offset, c :: cs =>
    if c.isDigit then
      let next := 10 * value + (c.toNat - '0'.toNat)
      if next ≤ Int64.maxValue.toInt.toNat then integer start next (offset + 1) cs
      else .fault ⟨offset, .intOverflow⟩ (c :: cs)
    else .token ⟨start, .int (Int64.ofNat value)⟩ offset (c :: cs)

/-- The string literal behind its opening quotation mark. It has no escapes and ends at the next
mark. -/
def quoted (start : Nat) (cs : List Char) : Step :=
  let content := cs.takeWhile (· != '"')
  let stop := start + 1 + Text.byteSize content
  match cs.dropWhile (· != '"') with
  | [] => .fault ⟨stop, .unterminatedString⟩ []
  | _ :: rest => .token ⟨start, .str (String.ofList content)⟩ (stop + 1) rest

/-- The character literal behind its opening mark: one ASCII character other than the mark, then the
mark. -/
def character (start : Nat) : List Char → Step
  | [] => .fault ⟨start + 1, .badCharLiteral⟩ []
  | c :: cs =>
    if isAscii c && c != '\'' then
      match cs with
      | '\'' :: rest => .token ⟨start, .chr c.toUInt8⟩ (start + 3) rest
      | _ => .fault ⟨start + 2, .badCharLiteral⟩ cs
    else .fault ⟨start + 1, .badCharLiteral⟩ (c :: cs)

/-- The lexeme that starts with the given character. -/
def lexeme (start : Nat) (c : Char) (cs : List Char) : Step :=
  match symbol? (c :: cs) with
  | some (token, width, rest) => .token ⟨start, token⟩ (start + width) rest
  | none =>
    if c = '"' then quoted start cs
    else if c = '\'' then character start cs
    else if isWordStart c then
      let word := c :: cs.takeWhile isWordPart
      .token ⟨start, wordToken (String.ofList word)⟩ (start + word.length) (cs.dropWhile isWordPart)
    else if c.isDigit then integer start 0 start (c :: cs)
    else .fault ⟨start, .badChar c⟩ (c :: cs)

/-- What stands behind the gap at the start of a text. -/
def step (offset : Nat) (cs : List Char) : Step :=
  match skipGap false offset cs with
  | (_, []) => .done
  | (start, c :: rest) => lexeme start c rest

theorem length_skipGap_le (comment : Bool) (offset : Nat) (cs : List Char) :
    (skipGap comment offset cs).2.length ≤ cs.length := by
  fun_induction skipGap comment offset cs <;> grind

theorem length_skipLine_le (offset : Nat) (cs : List Char) :
    (skipLine offset cs).2.length ≤ cs.length - 1 := by
  fun_induction skipLine offset cs <;> grind

theorem length_lt_of_symbol? {cs rest : List Char} {token : Token} {width : Nat}
    (h : symbol? cs = some (token, width, rest)) : rest.length < cs.length := by
  unfold symbol? at h
  split at h <;> grind

/-- The text left by a step over a text of length `n + 1`: a token leaves less, a fault at most as
much. -/
def Step.Within (n : Nat) : Step → Prop
  | .done => True
  | .token _ _ rest => rest.length ≤ n
  | .fault _ rest => rest.length ≤ n + 1

theorem within_integer (start value offset : Nat) (cs : List Char) (n : Nat) (h : cs.length ≤ n) :
    (integer start value offset cs).Within n := by
  induction cs generalizing value offset with
  | nil => simp [integer, Step.Within]
  | cons c cs ih =>
    simp only [List.length_cons] at h
    unfold integer
    split
    · dsimp only
      split
      · exact ih _ _ (by omega)
      · simp only [Step.Within, List.length_cons]
        omega
    · simpa only [Step.Within, List.length_cons] using h

theorem within_lexeme (start : Nat) (c : Char) (cs : List Char) :
    (lexeme start c cs).Within cs.length := by
  unfold lexeme
  split
  · next token width rest h =>
    have := length_lt_of_symbol? h
    simp only [List.length_cons] at this
    simp only [Step.Within]
    omega
  · split
    · have hle := (List.dropWhile_sublist (l := cs) (· != '"')).length_le
      unfold quoted
      dsimp only
      split
      · simp [Step.Within]
      · next rest h =>
        rw [h, List.length_cons] at hle
        simp only [Step.Within]
        omega
    · split
      · unfold character
        split
        · simp [Step.Within]
        · split
          · split <;> simp only [Step.Within, List.length_cons] <;> omega
          · simp [Step.Within]
      · split
        · simpa only [Step.Within] using (List.dropWhile_sublist (l := cs) isWordPart).length_le
        · split
          · next h =>
            unfold integer
            rw [if_pos h]
            dsimp only
            split
            · exact within_integer _ _ _ _ _ (Nat.le_refl _)
            · simp [Step.Within]
          · simp [Step.Within]

/-- Every lexeme and every fault uses up part of the text. -/
theorem within_step (offset : Nat) (cs : List Char) : (step offset cs).Within (cs.length - 1) := by
  have hgap := length_skipGap_le false offset cs
  unfold step
  split
  · trivial
  · next start c rest h =>
    rw [h, List.length_cons] at hgap
    have hlex := within_lexeme start c rest
    revert hlex
    cases lexeme start c rest with
    | done => exact fun _ => trivial
    | token _ _ rest' => simp only [Step.Within]; omega
    | fault _ rest' => simp only [Step.Within]; omega

theorem length_pos_of_step_ne_done {offset : Nat} {cs : List Char} (h : step offset cs ≠ .done) :
    0 < cs.length := by
  cases cs with
  | nil => exact absurd rfl h
  | cons c cs => exact Nat.succ_pos _

theorem rest_lt_of_step {offset next : Nat} {cs rest : List Char} {token : Located Token}
    (h : step offset cs = .token token next rest) : rest.length < cs.length := by
  have hpos := @length_pos_of_step_ne_done offset cs (by rw [h]; nofun)
  have hstep := within_step offset cs
  rw [h] at hstep
  simp only [Step.Within] at hstep
  omega

theorem skipLine_lt_of_step {offset : Nat} {cs rest : List Char} {error : Located LexError}
    (h : step offset cs = .fault error rest) (next : Nat) :
    (skipLine next rest).2.length < cs.length := by
  have hpos := @length_pos_of_step_ne_done offset cs (by rw [h]; nofun)
  have hskip := length_skipLine_le next rest
  have hstep := within_step offset cs
  rw [h] at hstep
  simp only [Step.Within] at hstep
  omega

/-- The tokens of a text that starts at the given offset, or its faults in order. -/
def run (offset : Nat) (cs : List Char) : Except (List (Located LexError)) (List (Located Token)) :=
  match h : step offset cs with
  | .done => .ok []
  | .token token next rest =>
    have := rest_lt_of_step h
    match run next rest with
    | .ok tokens => .ok (token :: tokens)
    | .error errors => .error errors
  | .fault error rest =>
    have := skipLine_lt_of_step h error.offset
    match run (skipLine error.offset rest).1 (skipLine error.offset rest).2 with
    | .ok _ => .error [error]
    | .error errors => .error (error :: errors)
termination_by cs.length

end Lexer

/-- All tokens of a text, or, if there is a fault, all its faults. -/
def tokenize (text : String) : Except (List (Located LexError)) (List (Located Token)) :=
  Lexer.run 0 text.toList

end Firestorm
