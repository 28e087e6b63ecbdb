import Mathlib.Tactic.Common
import Firestorm.Bytecode.Encode

/-!
# Reading texts back

What has been written is read back unchanged: decimal numbers, texts between blanks, lines between
newlines, and words between blanks.

## Main results

* `Text.Decimal.readNat_toString`, `Text.Decimal.readInt_toString`, `Text.trim_of_nonblank`,
  `Text.lines_unlines`, `Bytecode.words_append_blank`, `Bytecode.words_singleton`.
-/

namespace Firestorm

variable {c : Char}

namespace Text

variable {cs : List Char}

namespace Decimal

theorem le_ofDigitChars (cs : List Char) (value : Nat) : value ≤ Nat.ofDigitChars 10 cs value := by
  rw [Nat.ofDigitChars_eq_ofDigitChars_zero]
  calc
    value ≤ 10 ^ cs.length * value := Nat.le_mul_of_pos_left _ (Nat.pow_pos (by omega))
    _ ≤ _ := Nat.le_add_right ..

/-- Digits are read up to the limit. -/
theorem digitsFrom_of_isDigit {limit value : Nat} {beyond : Defect}
    (hcs : ∀ c ∈ cs, c.isDigit = true) (hvalue : value ≤ limit) : digitsFrom limit beyond value cs =
      if Nat.ofDigitChars 10 cs value ≤ limit then .ok (Nat.ofDigitChars 10 cs value)
      else .error beyond := by
  induction cs generalizing value with
  | nil => simp [digitsFrom, hvalue]
  | cons c cs ih =>
    obtain ⟨hc, hcs⟩ := List.forall_mem_cons.1 hcs
    rw [digitsFrom, if_pos hc, Nat.ofDigitChars_cons]
    dsimp only
    split
    · next hnext => exact ih hcs hnext
    · next hnext =>
      have hle := le_ofDigitChars cs (10 * value + (c.toNat - '0'.toNat))
      rw [if_neg (by omega)]

theorem digits_toDigits (limit n : Nat) (beyond : Defect) :
    digits limit beyond (Nat.toDigits 10 n) = if n ≤ limit then .ok n else .error beyond := by
  have hdigits : ∀ c ∈ Nat.toDigits 10 n, c.isDigit = true :=
    fun c hc => Nat.isDigit_of_mem_toDigits (by omega) (by omega) hc
  rw [digits, if_neg (by simp), digitsFrom_of_isDigit hdigits (Nat.zero_le _),
    Nat.ofDigitChars_ten_toDigits]

/-- The first digit of a number, which is no sign. -/
theorem exists_toDigits_eq_cons (n : Nat) :
    ∃ c cs, Nat.toDigits 10 n = c :: cs ∧ c.isDigit = true := by
  cases h : Nat.toDigits 10 n with
  | nil => exact absurd h Nat.toDigits_ne_nil
  | cons c cs =>
    refine ⟨c, cs, rfl, Nat.isDigit_of_mem_toDigits (by omega) (by omega) (b := 10) (n := n) ?_⟩
    rw [h]
    exact List.mem_cons_self ..

theorem toList_toString (n : Nat) : (toString n).toList = Nat.toDigits 10 n := by
  rw [Nat.toString_eq_ofList_toDigits, String.toList_ofList]

/-- A number is read back if it is within the limit, else it is too large. -/
theorem readNat_toString (limit n : Nat) :
    readNat limit (toString n).toList = if n ≤ limit then .ok n else .error .tooLarge := by
  rw [toList_toString, ← digits_toDigits]
  obtain ⟨c, cs, hcons, hc⟩ := exists_toDigits_eq_cons n
  rw [hcons]
  unfold readNat
  split
  · next h => cases h
  · next h =>
    cases h
    cases hc
  · rfl

/-- An integer within the limits is read back. -/
theorem readInt_toString {limit : Nat} {i : Int} (hlow : -(limit : Int) - 1 ≤ i)
    (hhigh : i ≤ limit) : readInt limit (toString i).toList = .ok i := by
  rw [Int.toString_eq_repr, Int.repr_eq_if]
  split
  · next h =>
    rw [Nat.repr_eq_ofList_toDigits, String.toList_ofList]
    obtain ⟨c, cs, hcons, hc⟩ := exists_toDigits_eq_cons i.toNat
    have hread := digits_toDigits limit i.toNat .tooLarge
    rw [if_pos (by omega)] at hread
    rw [hcons] at hread ⊢
    unfold readInt
    split
    · next h => cases h
    · next h =>
      cases h
      cases hc
    · next h =>
      cases h
      cases hc
    · rw [hread]
      exact congrArg Except.ok (Int.toNat_of_nonneg h)
  · next h =>
    rw [String.toList_append, Nat.repr_eq_ofList_toDigits]
    rw [String.toList_ofList, String.toList_ofList]
    have hread := digits_toDigits (limit + 1) (-i).toNat .tooSmall
    rw [if_pos (by omega)] at hread
    rw [List.singleton_append, readInt, hread]
    refine congrArg Except.ok ?_
    dsimp only
    omega

end Decimal

/-! ### Outer blanks -/

theorem trimStart_of_nonblank (h : ∀ c ∈ cs.head?, isBlank c = false) : trimStart cs = cs := by
  cases cs with
  | nil => rfl
  | cons c cs => rw [trimStart, List.dropWhile_cons_of_neg (by simp [h c rfl])]

/-- A text that neither starts nor ends with a blank is not trimmed. -/
theorem trim_of_nonblank (hhead : ∀ c ∈ cs.head?, isBlank c = false)
    (hlast : ∀ c ∈ cs.getLast?, isBlank c = false) : trim cs = cs := by
  rw [trim, trimStart_of_nonblank hhead, trimEnd, trimStart_of_nonblank, List.reverse_reverse]
  rwa [List.head?_reverse]

theorem trim_cons_of_blank (hc : isBlank c = true) (cs : List Char) : trim (c :: cs) = trim cs := by
  rw [trim, trim, trimStart, trimStart, List.dropWhile_cons_of_pos hc]

theorem trim_append_of_blank {bs : List Char} (hbs : ∀ b ∈ bs, isBlank b = true) (cs : List Char) :
    trim (bs ++ cs) = trim cs := by
  induction bs with
  | nil => rfl
  | cons b bs ih =>
    obtain ⟨hb, hbs⟩ := List.forall_mem_cons.1 hbs
    rw [List.cons_append, trim_cons_of_blank hb, ih hbs]

theorem behind?_append (start rest : List Char) : behind? start (start ++ rest) = some rest := by
  induction start with
  | nil => rfl
  | cons c start ih => rw [List.cons_append, behind?, if_pos rfl, ih]

/-! ### Lines -/

theorem pieces_append_newline {l : List Char} (hl : '\n' ∉ l) (cs : List Char) :
    pieces (l ++ '\n' :: cs) = l :: pieces cs := by
  induction l with
  | nil => rfl
  | cons c l ih =>
    rw [List.cons_append, pieces, if_neg (by rintro rfl; simp at hl), ih (by simp_all)]

theorem pieces_unlines {ls : List (List Char)} (h : ∀ l ∈ ls, '\n' ∉ l) :
    pieces (ls.flatMap (· ++ ['\n'])) = ls ++ [[]] := by
  induction ls with
  | nil => rfl
  | cons l ls ih =>
    obtain ⟨hl, hls⟩ := List.forall_mem_cons.1 h
    rw [List.flatMap_cons, List.append_assoc, List.singleton_append, pieces_append_newline hl,
      ih hls, List.cons_append]

/-- Lines without a newline that do not end with a carriage return are read back. -/
theorem lines_unlines {ls : List (List Char)} (h : ∀ l ∈ ls, '\n' ∉ l)
    (h' : ∀ l ∈ ls, l.getLast? ≠ some '\r') : lines (ls.flatMap (· ++ ['\n'])) = ls := by
  have hreturn : ∀ l ∈ ls, dropReturn l = l := fun l hl => if_neg (h' l hl)
  simp only [lines, pieces_unlines h, List.dropLast_concat, List.getLast?_concat, Option.getD_some,
    List.isEmpty_nil, if_true, List.append_nil]
  exact (List.map_congr_left hreturn).trans (List.map_id ls)

end Text

/-! ### Words -/

namespace Bytecode

variable {w : List Char}

-- The equations are generated once, in front of the proofs that open them.
attribute [local simp] wordsFrom

theorem wordsFrom_append (hw : ∀ c ∈ w, Text.isBlank c = false) (word cs : List Char) :
    wordsFrom word (w ++ cs) = wordsFrom (w.reverse ++ word) cs := by
  induction w generalizing word with
  | nil => rfl
  | cons c w ih =>
    obtain ⟨hc, hw⟩ := List.forall_mem_cons.1 hw
    rw [List.cons_append, wordsFrom, hc, if_neg (by simp), ih hw]
    simp

/-- A word in front of a blank is read back. -/
theorem words_append_blank (hw : ∀ c ∈ w, Text.isBlank c = false) (hne : w ≠ [])
    (hc : Text.isBlank c = true) (cs : List Char) :
    words (w ++ c :: cs) = String.ofList w :: words cs := by
  rw [words, wordsFrom_append hw, wordsFrom, if_pos hc, if_neg (by simpa using hne)]
  simp [words]

/-- A word alone is read back. -/
theorem words_singleton (hw : ∀ c ∈ w, Text.isBlank c = false) (hne : w ≠ []) :
    words w = [String.ofList w] := by
  rw [words, ← List.append_nil w, wordsFrom_append hw, wordsFrom, if_neg (by simpa using hne)]
  simp

theorem words_cons_blank (hc : Text.isBlank c = true) (cs : List Char) :
    words (c :: cs) = words cs := by
  rw [words, wordsFrom, if_pos hc]
  rfl

end Bytecode

end Firestorm
