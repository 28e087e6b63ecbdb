import Firestorm.Proofs.Text.Reading
import Firestorm.Source

/-!
# Lines and byte offsets

A byte of a text lies on one of its lines. Newlines are bytes of their own in the UTF-8 form of a
text, so that they can be counted without decoding it.

## Main definitions

* `Text.unlines`, `Text.OnLine`.

## Main results

* `Text.exists_onLine`, `Text.OnLine.text_eq`, `Text.OnLine.count_newlineByte`,
  `Text.OnLine.length_takeWhile`, `Text.OnLine.within`.
-/

namespace Firestorm.Text

variable {cs : List Char}

/-- Lines, each with a newline behind it. -/
def unlines (ls : List (List Char)) : List Char :=
  ls.flatMap (· ++ ['\n'])

@[simp] theorem unlines_nil : unlines [] = [] := rfl

@[simp] theorem unlines_cons (l : List Char) (ls : List (List Char)) :
    unlines (l :: ls) = l ++ '\n' :: unlines ls := by
  simp [unlines]

@[simp] theorem unlines_append (ls more : List (List Char)) :
    unlines (ls ++ more) = unlines ls ++ unlines more :=
  List.flatMap_append

theorem utf8Size_newline : '\n'.utf8Size = 1 := rfl

theorem pieces_ne_nil (cs : List Char) : pieces cs ≠ [] := by
  cases cs with
  | nil => simp [pieces]
  | cons c cs =>
    rw [pieces]
    split
    · simp
    · split <;> simp

theorem pieces_cons {c : Char} (hc : c ≠ '\n') (cs : List Char) :
    ∃ piece rest, pieces cs = piece :: rest ∧ pieces (c :: cs) = (c :: piece) :: rest := by
  obtain ⟨piece, rest, hpieces⟩ := List.exists_cons_of_ne_nil (pieces_ne_nil cs)
  refine ⟨piece, rest, hpieces, ?_⟩
  rw [pieces, if_neg hc, hpieces]

theorem pieces_eq_splitOn (cs : List Char) : pieces cs = cs.splitOn '\n' := by
  induction cs with
  | nil => rfl
  | cons c cs ih =>
    rw [List.splitOn_eq_splitOnP, List.splitOnP_cons_eq_if_modifyHead,
      ← List.splitOn_eq_splitOnP, ← ih]
    by_cases hc : c = '\n'
    · simp [pieces, hc]
    · obtain ⟨piece, rest, hpieces, hcons⟩ := pieces_cons hc cs
      simp [hcons, hpieces, hc]

/-- A newline stands between two pieces. -/
theorem pieces_append (cs ds : List Char) : pieces (cs ++ '\n' :: ds) = pieces cs ++ pieces ds := by
  simp only [pieces_eq_splitOn, List.splitOn_append_cons_self]

theorem pieces_of_notMem (h : '\n' ∉ cs) : pieces cs = [cs] := by
  rw [pieces_eq_splitOn, List.splitOn_eq_singleton h]

/-- With one more newline at its end, a text consists of its pieces. -/
theorem unlines_pieces (cs : List Char) : unlines (pieces cs) = cs ++ ['\n'] := by
  induction cs with
  | nil => rfl
  | cons c cs ih =>
    by_cases hc : c = '\n'
    · simp [pieces, hc, ih]
    · obtain ⟨piece, rest, hpieces, hcons⟩ := pieces_cons hc cs
      rw [hpieces] at ih
      simpa [hcons] using ih

theorem newline_notMem_of_mem_pieces {piece : List Char} (h : piece ∈ pieces cs) :
    '\n' ∉ piece := by
  induction cs generalizing piece with
  | nil => simp_all [pieces]
  | cons c cs ih =>
    by_cases hc : c = '\n'
    · rw [pieces, if_pos hc, List.mem_cons] at h
      rcases h with rfl | h
      · exact List.not_mem_nil
      · exact ih h
    · obtain ⟨first, rest, hpieces, hcons⟩ := pieces_cons hc cs
      rw [hcons, List.mem_cons] at h
      rcases h with rfl | h
      · have hfirst : '\n' ∉ first := ih (hpieces ▸ List.mem_cons_self ..)
        simp [hfirst, Ne.symm hc]
      · exact ih (hpieces ▸ List.mem_cons_of_mem _ h)

section

variable {ls : List (List Char)} (h : ∀ l ∈ ls, '\n' ∉ l)
include h

theorem lines_unlines_eq_map : lines (unlines ls) = ls.map dropReturn := by
  have hpieces : pieces (unlines ls) = ls ++ [[]] := pieces_unlines h
  simp only [lines, hpieces, List.dropLast_concat, List.getLast?_concat, Option.getD_some,
    List.isEmpty_nil, if_true, List.append_nil]

theorem count_unlines : (unlines ls).count '\n' = ls.length := by
  induction ls with
  | nil => rfl
  | cons l ls ih =>
    obtain ⟨hl, hls⟩ := List.forall_mem_cons.1 h
    rw [unlines_cons, List.count_append, List.count_cons_self, ih hls,
      List.count_eq_zero_of_not_mem hl, List.length_cons]
    omega

end

theorem getLast?_unlines (ls : List (List Char)) : ∀ c ∈ (unlines ls).getLast?, c = '\n' := by
  cases hlast : ls.getLast? with
  | none => simp [List.getLast?_eq_none_iff.1 hlast]
  | some l =>
    obtain ⟨init, rfl⟩ := List.getLast?_eq_some_iff.1 hlast
    simp

/-! ### Newlines among bytes -/

/-- The byte of a newline. -/
def newlineByte : UInt8 := 10

theorem utf8_append (cs ds : List Char) : utf8 (cs ++ ds) = utf8 cs ++ utf8 ds :=
  List.flatMap_append

theorem utf8_newline_cons (cs : List Char) : utf8 ('\n' :: cs) = newlineByte :: utf8 cs := rfl

/-- No other character has the byte of a newline in its UTF-8 form. -/
theorem eq_newline_of_mem_utf8EncodeChar {c : Char} (h : newlineByte ∈ String.utf8EncodeChar c) :
    c = '\n' := by
  have hbyte : ∀ n : Nat, newlineByte = UInt8.ofNat n → n % 2 ^ 8 = 10 := fun n hn =>
    (UInt8.ofNat_eq_iff_mod_eq_toNat n newlineByte).1 hn.symm
  rw [String.utf8EncodeChar] at h
  split_ifs at h with h₁ h₂ h₃
  · have hvalue := hbyte _ (List.mem_singleton.1 h)
    refine Char.ext (UInt32.toNat.inj ?_)
    change c.val.toNat = 10
    omega
  -- The bytes of longer forms are all larger.
  all_goals simp only [List.mem_cons, List.not_mem_nil, or_false] at h
  · rcases h with h | h <;> have hvalue := hbyte _ h <;> omega
  · rcases h with h | h | h <;> have hvalue := hbyte _ h <;> omega
  · rcases h with h | h | h | h <;> have hvalue := hbyte _ h <;> omega

theorem newlineByte_notMem_utf8 (h : '\n' ∉ cs) : newlineByte ∉ utf8 cs := by
  intro hmem
  obtain ⟨c, hc, hbyte⟩ := List.mem_flatMap.1 hmem
  exact h (eq_newline_of_mem_utf8EncodeChar hbyte ▸ hc)

theorem count_utf8_unlines {ls : List (List Char)} (h : ∀ l ∈ ls, '\n' ∉ l) :
    (utf8 (unlines ls)).count newlineByte = ls.length := by
  induction ls with
  | nil => rfl
  | cons l ls ih =>
    obtain ⟨hl, hls⟩ := List.forall_mem_cons.1 h
    rw [unlines_cons, utf8_append, utf8_newline_cons, List.count_append,
      List.count_cons_self, ih hls, List.count_eq_zero_of_not_mem (newlineByte_notMem_utf8 hl),
      List.length_cons]
    omega

/-! ### The line of an offset -/

/-- The byte at an offset, or the end of the text, lies on a line with the given lines in front of
it and behind it. -/
structure OnLine (cs : List Char) (offset : Nat) (front : List (List Char)) (line : List Char)
    (back : List (List Char)) : Prop where
  pieces_eq : pieces cs = front ++ line :: back
  start_le : byteSize (unlines front) ≤ offset
  le_stop : offset ≤ byteSize (unlines front) + byteSize line

theorem exists_line {ls : List (List Char)} {offset : Nat} (h : offset < byteSize (unlines ls)) :
    ∃ front line back, ls = front ++ line :: back ∧ byteSize (unlines front) ≤ offset ∧
      offset ≤ byteSize (unlines front) + byteSize line := by
  induction ls generalizing offset with
  | nil => simp at h
  | cons l ls ih =>
    rw [unlines_cons, byteSize_append, byteSize_cons, utf8Size_newline] at h
    by_cases hl : offset ≤ byteSize l
    · exact ⟨[], l, ls, rfl, by simp, by simpa using hl⟩
    · obtain ⟨front, line, back, rfl, hstart, hstop⟩ :=
        ih (show offset - (byteSize l + 1) < byteSize (unlines ls) by omega)
      refine ⟨l :: front, line, back, rfl, ?_, ?_⟩ <;>
        rw [unlines_cons, byteSize_append, byteSize_cons, utf8Size_newline] <;>
        omega

/-- Every offset within a text lies on a line. -/
theorem exists_onLine {offset : Nat} (h : offset ≤ byteSize cs) :
    ∃ front line back, OnLine cs offset front line back := by
  have hsize : offset < byteSize (unlines (pieces cs)) := by
    rw [unlines_pieces, byteSize_append, byteSize_cons, utf8Size_newline, byteSize_nil]
    omega
  obtain ⟨front, line, back, hpieces, hstart, hstop⟩ := exists_line hsize
  exact ⟨front, line, back, hpieces, hstart, hstop⟩

theorem newline_cons_unlines (ls : List (List Char)) :
    '\n' :: unlines ls = ls.flatMap ('\n' :: ·) ++ ['\n'] := by
  induction ls with
  | nil => rfl
  | cons l ls ih => simp [ih]

/-- A text some of whose lines are those of another text contains the other text. -/
theorem eq_append_of_pieces {ds : List Char} {before behind : List (List Char)}
    (h : pieces ds = before ++ pieces cs ++ behind) :
    ds = unlines before ++ cs ++ behind.flatMap ('\n' :: ·) := by
  have htext := unlines_pieces ds
  rw [h, unlines_append, unlines_append, unlines_pieces, List.append_assoc, List.append_assoc,
    List.singleton_append, newline_cons_unlines, ← List.append_assoc, ← List.append_assoc] at htext
  exact (List.append_cancel_right htext).symm

namespace OnLine

variable {cs : List Char} {offset : Nat} {front back : List (List Char)} {line : List Char}

theorem newline_notMem (h : OnLine cs offset front line back) : '\n' ∉ line :=
  newline_notMem_of_mem_pieces (h.pieces_eq ▸ List.mem_append_right _ (List.mem_cons_self ..))

/-- The text consists of the lines in front of the line, the line, and the lines behind it. -/
theorem text_eq (h : OnLine cs offset front line back) :
    cs = unlines front ++ (line ++ back.flatMap ('\n' :: ·)) := by
  have hpieces : pieces cs = front ++ pieces line ++ back := by
    rw [h.pieces_eq, pieces_of_notMem h.newline_notMem, List.append_assoc, List.singleton_append]
  rw [← List.append_assoc]
  exact eq_append_of_pieces hpieces

theorem takeWhile_eq (h : OnLine cs offset front line back) :
    (line ++ back.flatMap ('\n' :: ·)).takeWhile (· ≠ '\n') = line := by
  have hline : ∀ c ∈ line, decide (c ≠ '\n') = true := fun c hc =>
    decide_eq_true fun heq => h.newline_notMem (heq ▸ hc)
  rw [List.takeWhile_append_of_pos hline]
  cases back <;> simp

theorem newline_notMem_front (h : OnLine cs offset front line back) : ∀ l ∈ front, '\n' ∉ l :=
  fun _ hl => newline_notMem_of_mem_pieces (h.pieces_eq ▸ List.mem_append_left _ hl)

/-- The bytes in front of an offset: those of the lines in front, and the first ones of the line. -/
theorem take_utf8 (h : OnLine cs offset front line back) :
    (utf8 cs).take offset =
      utf8 (unlines front) ++ (utf8 line).take (offset - byteSize (unlines front)) := by
  have hstart := h.start_le
  have hstop := h.le_stop
  rw [h.text_eq, utf8_append, utf8_append, List.take_append, List.take_append, length_utf8,
    length_utf8, List.take_of_length_le (by rw [length_utf8]; omega),
    Nat.sub_eq_zero_of_le (show offset - byteSize (unlines front) ≤ byteSize line by omega),
    List.take_zero, List.append_nil]

theorem newlineByte_notMem (h : OnLine cs offset front line back) (n : Nat) :
    newlineByte ∉ (utf8 line).take n :=
  fun hmem => newlineByte_notMem_utf8 h.newline_notMem (List.mem_of_mem_take hmem)

/-- The newlines in front of an offset are as many as the lines in front of its line. -/
theorem count_newlineByte (h : OnLine cs offset front line back) :
    ((utf8 cs).take offset).count newlineByte = front.length := by
  rw [h.take_utf8, List.count_append, count_utf8_unlines h.newline_notMem_front,
    List.count_eq_zero_of_not_mem (h.newlineByte_notMem _), Nat.add_zero]

/-- The bytes between the last newline in front of an offset and the offset. -/
theorem length_takeWhile (h : OnLine cs offset front line back) :
    (((utf8 cs).take offset).reverse.takeWhile (· ≠ newlineByte)).length =
      offset - byteSize (unlines front) := by
  have hline : ∀ b ∈ ((utf8 line).take (offset - byteSize (unlines front))).reverse,
      decide (b ≠ newlineByte) = true := by
    intro b hb
    refine decide_eq_true ?_
    rintro rfl
    exact h.newlineByte_notMem _ (List.mem_reverse.1 hb)
  have hfront : (utf8 (unlines front)).reverse.takeWhile (· ≠ newlineByte) = [] := by
    cases hlast : front.getLast? with
    | none => simp [List.getLast?_eq_none_iff.1 hlast, utf8]
    | some l =>
      obtain ⟨init, rfl⟩ := List.getLast?_eq_some_iff.1 hlast
      rw [unlines_append, unlines_cons, unlines_nil, utf8_append, utf8_append, utf8_newline_cons]
      simp [utf8]
  have hstop := h.le_stop
  rw [h.take_utf8, List.reverse_append, List.takeWhile_append_of_pos hline, hfront, List.append_nil,
    List.length_reverse, List.length_take, length_utf8]
  omega

theorem getElem?_splitOn (h : OnLine cs offset front line back) :
    (cs.splitOn '\n')[front.length]? = some line := by
  rw [← pieces_eq_splitOn, h.pieces_eq]
  simp

/-- The lines of a part of a text are lines of the text. -/
theorem within {ds : List Char} {before behind : List (List Char)}
    (h : OnLine cs offset front line back) (hds : pieces ds = before ++ pieces cs ++ behind) :
    OnLine ds (byteSize (unlines before) + offset) (before ++ front) line (back ++ behind) where
  pieces_eq := by
    rw [hds, h.pieces_eq]
    simp
  start_le := by
    have hstart := h.start_le
    rw [unlines_append, byteSize_append]
    omega
  le_stop := by
    have hstop := h.le_stop
    rw [unlines_append, byteSize_append]
    omega

end OnLine

end Firestorm.Text
