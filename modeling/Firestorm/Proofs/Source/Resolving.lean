import Mathlib.Algebra.Group.Nat.Defs
import Mathlib.Data.Nat.Basic
import Mathlib.Order.Basic
import Firestorm.Proofs.Text.Lines

/-!
# Resolving offsets

An offset is resolved to its line, and to the innermost file that is open in front of the line. This
is defined for every text: the line starts at or before the offset, at the start of a character, and
no file is opened behind the line. The numbers of the line and of the column are kept in 32 bits,
which holds them for the first 4 GiB of a file.

## Main definitions

* `Text.lineNumber`, `Text.columnNumber`, `Position.ofByte`, `Source.Unmarked`, `Source.Cut`.

## Main results

* `Position.numbers_ofByte`, `Source.resolve_of_onLine`, `Source.resolve_within`,
  `Source.exists_cut`.
* `Source.lineAt_of_onLine`: the line of an offset.
-/

namespace Firestorm

variable {cs : List Char}

/-! ### The position of a byte -/

/-- The number of the line of a byte: one more than the newlines in front of it. -/
def Text.lineNumber (cs : List Char) (i : Nat) : Nat :=
  ((utf8 cs).take i).count newlineByte + 1

/-- The number of the column of a byte: one more than the bytes between the start of its line and
it. -/
def Text.columnNumber (cs : List Char) (i : Nat) : Nat :=
  (((utf8 cs).take i).reverse.takeWhile (· ≠ newlineByte)).length + 1

/-- The position of a byte of a file, with its numbers in 32 bits. -/
def Position.ofByte (file : String) (cs : List Char) (i : Nat) : Position where
  file
  line := .ofNat (Text.lineNumber cs i)
  column := .ofNat (Text.columnNumber cs i)
  text := String.ofList ((cs.splitOn '\n')[Text.lineNumber cs i - 1]?.getD [])

theorem Text.lineNumber_le (cs : List Char) (i : Nat) : lineNumber cs i ≤ i + 1 :=
  Nat.succ_le_succ (List.count_le_length.trans (List.length_take_le i _))

theorem Text.columnNumber_le (cs : List Char) (i : Nat) : columnNumber cs i ≤ i + 1 := by
  refine Nat.succ_le_succ ((List.takeWhile_sublist _).length_le.trans ?_)
  rw [List.length_reverse]
  exact List.length_take_le i _

/-- Up to the last byte that 32 bits can count, a position has the numbers of the line and of the
column themselves. -/
theorem Position.numbers_ofByte (file : String) (cs : List Char) {i : Nat} (hi : i + 1 < 2 ^ 32) :
    ((ofByte file cs i).line : Nat) = Text.lineNumber cs i ∧
      ((ofByte file cs i).column : Nat) = Text.columnNumber cs i :=
  ⟨UInt32.toNat_ofNat_of_lt' ((Text.lineNumber_le cs i).trans_lt hi),
    UInt32.toNat_ofNat_of_lt' ((Text.columnNumber_le cs i).trans_lt hi)⟩

theorem Text.OnLine.ofByte_eq {line : List Char} {i : Nat} {front back : List (List Char)}
    (h : OnLine cs i front line back) (file : String) : Position.ofByte file cs i =
      ⟨file, .ofNat (front.length + 1), .ofNat (i - byteSize (unlines front) + 1),
        String.ofList line⟩ := by
  simp only [Position.ofByte, lineNumber, columnNumber, h.count_newlineByte, h.length_takeWhile,
    Nat.add_sub_cancel, h.getElem?_splitOn, Option.getD_some]

namespace Source

open Text (OnLine byteSize unlines pieces dropReturn)

variable {line : List Char} {front back : List (List Char)} {offset : Nat} {text : String}

/-! ### The line of an offset -/

theorem lineAt_append {start : Nat} (hstart : start + byteSize (unlines front) ≤ offset)
    (hstop : offset ≤ start + byteSize (unlines front) + byteSize line) :
    lineAt offset start (front ++ line :: back) =
      (front.length, start + byteSize (unlines front), line) := by
  induction front generalizing start with
  | nil =>
    simp only [Text.unlines_nil, Text.byteSize_nil, Nat.add_zero] at hstop
    cases back with
    | nil => rfl
    | cons next back =>
      rw [List.nil_append, lineAt]
      simp only [show offset < start + byteSize line + 1 by omega, if_true]
      rfl
  | cons l front ih =>
    simp only [Text.unlines_cons, Text.byteSize_append, Text.byteSize_cons, Text.utf8Size_newline]
      at hstart hstop ⊢
    obtain ⟨next, rest, hrest⟩ :=
      List.exists_cons_of_ne_nil (List.append_ne_nil_of_right_ne_nil front
      (List.cons_ne_nil line back))
    have ih := @ih (start + byteSize l + 1) (by omega) (by omega)
    rw [List.cons_append, hrest, lineAt, ← hrest, ih]
    simp only [show ¬ offset < start + byteSize l + 1 by omega, if_false, List.length_cons,
      Prod.mk.injEq, true_and, and_true]
    omega

theorem lineAt_of_onLine (h : OnLine cs offset front line back) :
    lineAt offset 0 (pieces cs) = (front.length, byteSize (unlines front), line) := by
  have hstart := h.start_le
  have hstop := h.le_stop
  rw [h.pieces_eq, lineAt_append (by omega) (by omega), Nat.zero_add]

/-! ### Open files -/

theorem opened_append (scopes : List Scope) (index : Nat) (ls more : List (List Char)) :
    opened scopes index (ls ++ more) =
    opened (opened scopes index ls) (index + ls.length) more := by
  induction ls generalizing scopes index with
  | nil => rfl
  | cons l ls ih =>
    rw [List.cons_append, opened, opened, ih, List.length_cons, Nat.add_right_comm, Nat.add_assoc]

/-- Lines that are no marks leave all files open. -/
theorem opened_of_none {ls : List (List Char)} (h : ∀ l ∈ ls, Marker.ofLine? l = none)
    (scopes : List Scope) (index : Nat) : opened scopes index ls = scopes := by
  induction ls generalizing index with
  | nil => rfl
  | cons l ls ih =>
    obtain ⟨hl, hls⟩ := List.forall_mem_cons.1 h
    rw [opened, openedBehind, hl, ih hls]

theorem base_le_of_openedBehind {scopes : List Scope} {index : Nat} (l : List Char)
    (h : ∀ scope ∈ scopes, scope.base ≤ index) :
    ∀ scope ∈ openedBehind scopes index l, scope.base ≤ index + 1 := by
  have hlater : ∀ scope ∈ scopes, scope.base ≤ index + 1 := fun scope hscope =>
    Nat.le_succ_of_le (h scope hscope)
  unfold openedBehind
  split
  · exact List.forall_mem_cons.2 ⟨Nat.le_refl _, hlater⟩
  · exact fun scope hscope => hlater scope (List.mem_of_mem_tail hscope)
  · exact hlater

/-- No file is opened behind the lines that open it. -/
theorem base_le_of_opened {scopes : List Scope} {index : Nat} (ls : List (List Char))
    (h : ∀ scope ∈ scopes, scope.base ≤ index) :
    ∀ scope ∈ opened scopes index ls, scope.base ≤ index + ls.length := by
  induction ls generalizing scopes index with
  | nil => exact h
  | cons l ls ih =>
    intro scope hscope
    have hbase := ih (base_le_of_openedBehind l h) scope hscope
    rw [List.length_cons]
    omega

/-! ### Marks -/

theorem eq_append_of_behind? {start rest : List Char} (h : Text.behind? start cs = some rest) :
    cs = start ++ rest := by
  induction start generalizing cs with
  | nil =>
    cases h
    rfl
  | cons s start ih =>
    cases cs with
    | nil => cases h
    | cons c cs =>
      rw [Text.behind?] at h
      split at h
      · next heq => rw [ih h, heq, List.cons_append]
      · cases h

/-- No line of a text is a mark. -/
def Unmarked (text : String) : Prop :=
  ∀ line ∈ text.toList.splitOn '\n', ¬ openMarker.toList <+: line ∧ ¬ closeMarker.toList <+: line

instance (text : String) : Decidable (Unmarked text) :=
  inferInstanceAs (Decidable (∀ line ∈ text.toList.splitOn '\n',
    ¬ openMarker.toList <+: line ∧ ¬ closeMarker.toList <+: line))

theorem dropReturn_isPrefix (cs : List Char) : dropReturn cs <+: cs := by
  unfold dropReturn
  split
  · exact List.dropLast_prefix cs
  · exact List.prefix_refl cs

theorem behind?_dropReturn_eq_none {start : List Char} (h : ¬ start <+: line) :
    Text.behind? start (dropReturn line) = none := by
  cases hbehind : Text.behind? start (dropReturn line) with
  | none => rfl
  | some rest =>
    have hbegins : start <+: dropReturn line := ⟨rest, (eq_append_of_behind? hbehind).symm⟩
    exact absurd (hbegins.trans (dropReturn_isPrefix line)) h

theorem Unmarked.ofLine?_eq_none (h : Unmarked text) (hline : line ∈ pieces text.toList) :
    Marker.ofLine? (dropReturn line) = none := by
  obtain ⟨hopen, hclose⟩ := h line (Text.pieces_eq_splitOn _ ▸ hline)
  rw [Marker.ofLine?, behind?_dropReturn_eq_none hopen, behind?_dropReturn_eq_none hclose]
  rfl

/-! ### Positions -/

/-- The innermost file that is open behind lines of a source. -/
def innermost (name : String) (ls : List (List Char)) : Scope :=
  (opened [] 0 ls).headD ⟨name, 0⟩

theorem base_innermost_le (name : String) (ls : List (List Char)) :
    (innermost name ls).base ≤ ls.length := by
  unfold innermost
  cases hopened : opened [] 0 ls with
  | nil => exact Nat.zero_le _
  | cons scope scopes =>
    have hbase := base_le_of_opened ls (List.forall_mem_nil _) scope
      (hopened ▸ List.mem_cons_self ..)
    rwa [Nat.zero_add] at hbase

/-- The position of an offset within a text. -/
theorem resolve_of_onLine {name : String} (h : OnLine text.toList offset front line back) :
    resolve ⟨name, text⟩ offset =
      ⟨(innermost name (front.map dropReturn)).file,
        .ofNat (front.length - (innermost name (front.map dropReturn)).base + 1),
        .ofNat (offset - byteSize (unlines front) + 1), String.ofList line⟩ := by
  have hsize : offset ≤ byteSize text.toList := by
    have hstop := h.le_stop
    rw [h.text_eq, Text.byteSize_append, Text.byteSize_append]
    omega
  have htake : (pieces text.toList).take front.length = front := by
    rw [h.pieces_eq, List.take_left]
  unfold resolve
  simp only [Nat.min_eq_left hsize, lineAt_of_onLine h, htake]
  rfl

/-- The position of a byte of a file whose lines stand among those of a text, behind the mark that
opens the file. -/
theorem resolve_within {name file part : String} {i : Nat} {before behind : List (List Char)}
    (hpieces : pieces text.toList = before ++ pieces part.toList ++ behind)
    (hfile : innermost name (before.map dropReturn) = ⟨file, before.length⟩) (hpart : Unmarked part)
    (hi : i ≤ byteSize part.toList) :
    resolve ⟨name, text⟩ (byteSize (unlines before) + i) = Position.ofByte file part.toList i := by
  obtain ⟨front, line, back, h⟩ := Text.exists_onLine hi
  have hfront : ∀ l ∈ front.map dropReturn, Marker.ofLine? l = none := by
    intro l hl
    obtain ⟨piece, hpiece, rfl⟩ := List.mem_map.1 hl
    exact hpart.ofLine?_eq_none (h.pieces_eq ▸ List.mem_append_left _ hpiece)
  have hinnermost : innermost name ((before ++ front).map dropReturn) = ⟨file, before.length⟩ := by
    rw [← hfile, innermost, List.map_append, opened_append, opened_of_none hfront]
    rfl
  rw [resolve_of_onLine (h.within hpieces), hinnermost, h.ofByte_eq, List.length_append,
    Text.unlines_append, Text.byteSize_append, Nat.add_sub_cancel_left, Nat.add_sub_add_left]

/-! ### Every offset -/

/-- How an offset is resolved, where a text is cut in front of the line that holds the offset. -/
structure Cut (source : Source) (offset : Nat) (front back : List Char) : Prop where
  text_eq : source.text.toList = front ++ back
  newline : ∀ c ∈ front.getLast?, c = '\n'
  start_le : byteSize front ≤ min offset (byteSize source.text.toList)
  le_stop : min offset (byteSize source.text.toList) ≤
    byteSize front + byteSize (back.takeWhile (· ≠ '\n'))
  base_le : (innermost source.name (Text.lines front)).base ≤ front.count '\n'
  resolve_eq : source.resolve offset =
    ⟨(innermost source.name (Text.lines front)).file,
      .ofNat (front.count '\n' - (innermost source.name (Text.lines front)).base + 1),
      .ofNat (min offset (byteSize source.text.toList) - byteSize front + 1),
      String.ofList (back.takeWhile (· ≠ '\n'))⟩

/-- Every offset of every text has a position: the text is cut between two characters, the line
begins at or before the offset, and the file was opened in front of the line. -/
theorem exists_cut (source : Source) (offset : Nat) :
    ∃ front back, Cut source offset front back := by
  obtain ⟨name, text⟩ := source
  obtain ⟨front, line, back, h⟩ :=
    Text.exists_onLine (Nat.min_le_right offset (byteSize text.toList))
  have hline := h.takeWhile_eq
  have hlines := Text.lines_unlines_eq_map h.newline_notMem_front
  have hcount := Text.count_unlines h.newline_notMem_front
  have hresolve : resolve ⟨name, text⟩ offset =
      resolve ⟨name, text⟩ (min offset (byteSize text.toList)) := by
    unfold resolve
    simp only [Nat.min_assoc, Nat.min_self]
  refine ⟨unlines front, line ++ back.flatMap ('\n' :: ·), h.text_eq,
    Text.getLast?_unlines front, h.start_le, ?_, ?_, ?_⟩
  · rw [hline]
    exact h.le_stop
  · rw [hlines, hcount]
    simpa using base_innermost_le name (front.map dropReturn)
  · rw [hline, hlines, hcount, hresolve, resolve_of_onLine h]

end Source

end Firestorm
