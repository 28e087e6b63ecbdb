import Firestorm.Proofs.Include.Expansion
import Firestorm.Proofs.Source.Resolving

/-!
# Positions in an expanded text

The lines of a file stand in an expanded text behind the mark that names the file, and in front of
the files inside it. When the marks are replayed up to one of these lines, the file is the innermost
one that is open. So every byte of the file has the position in the expanded text that it has in the
file, as long as no line of the file reads like a mark. Its line and its column are kept in 32 bits,
and are the numbers themselves for all bytes that 32 bits can count.

## Main definitions

* `Include.Forest.lines`, `Include.Placement.Faithful`.

## Main results

* `Include.pieces_append_render`, `Include.Forest.exists_lines`, `Include.faithful_of_render`.
* `Files.positions_of_expand`: positions survive the expansion of a text.
-/

namespace Firestorm

namespace Include

open Source (openMarker closeMarker Marker Unmarked innermost opened opened_append)
open Text (byteSize unlines pieces dropReturn isBlank)

variable {c : Char}

/-! ### The marks of files -/

/-- The code points of blanks. -/
def blankCodes : List Nat :=
  List.range' 9 5 ++ List.range' 0x2000 11 ++
    [0x20, 0x85, 0xA0, 0x1680, 0x2028, 0x2029, 0x202F, 0x205F, 0x3000]

theorem toNat_mem_blankCodes (h : isBlank c = true) : c.toNat ∈ blankCodes := by
  simp only [isBlank, Bool.or_eq_true, Bool.and_eq_true, decide_eq_true_eq, beq_iff_eq] at h
  simp only [blankCodes, List.mem_append, List.mem_range'_1, List.mem_cons, List.not_mem_nil,
    or_false]
  omega

theorem isBlank_of_isPathChar (h : isPathChar c = true) : isBlank c = false := by
  have hblanks : ∀ n ∈ blankCodes, isPathChar (Char.ofNat n) = false := by decide +kernel
  rw [← Bool.not_eq_true]
  intro hblank
  have hpath := hblanks _ (toNat_mem_blankCodes hblank)
  rw [Char.ofNat_toNat, h] at hpath
  cases hpath

section

variable {path : String} (h : ∀ c ∈ path.toList, isPathChar c = true)
include h

theorem notMem_of_isBlank (hc : isBlank c = true) : c ∉ path.toList := by
  intro hmem
  rw [isBlank_of_isPathChar (h c hmem)] at hc
  cases hc

theorem newline_notMem_mark : '\n' ∉ openMarker.toList ++ path.toList := by
  rw [List.mem_append, not_or]
  exact ⟨by decide, notMem_of_isBlank h (by decide)⟩

/-- The line in front of a file is a mark that names the file. -/
theorem ofLine?_openMarker :
    Marker.ofLine? (dropReturn (openMarker.toList ++ path.toList)) = some (.enter path) := by
  have hreturn : dropReturn (openMarker.toList ++ path.toList) = openMarker.toList ++
      path.toList := by
    refine if_neg fun hlast => ?_
    rcases List.mem_append.1 (List.mem_of_getLast? hlast) with hmem | hmem
    · exact absurd hmem (by decide)
    · exact notMem_of_isBlank h (by decide) hmem
  have htrim : Text.trimEnd path.toList = path.toList := by
    rw [Text.trimEnd, Text.trimStart_of_nonblank, List.reverse_reverse]
    intro c hc
    exact isBlank_of_isPathChar (h c (List.mem_reverse.1 (List.mem_of_mem_head? hc)))
  rw [hreturn, Marker.ofLine?, Text.behind?_append]
  simp only [htrim, String.ofList_toList]

/-- The file is the innermost one that is open behind the line in front of it. -/
theorem innermost_openMarker (name : String) (init : List (List Char)) :
    innermost name ((init ++ [openMarker.toList ++ path.toList]).map dropReturn) =
      ⟨path, (init ++ [openMarker.toList ++ path.toList]).length⟩ := by
  rw [innermost, List.map_append, opened_append, List.map_singleton, opened, opened,
    Source.openedBehind, ofLine?_openMarker h]
  simp

end

/-! ### The lines of files -/

/-- The lines of files that follow a text, behind the newline with which the first mark begins. -/
def Forest.lines : Forest → List (List Char)
  | nil => []
  | file path text inside rest =>
    [openMarker.toList ++ path.toList] ++ pieces text.toList ++ inside.lines ++
      [closeMarker.toList, []] ++ rest.lines

theorem toList_block_append (path text : String) (rest : List Char) :
    (block path text).toList ++ rest =
      '\n' :: (openMarker.toList ++ path.toList ++
        '\n' :: (text.toList ++ '\n' :: (closeMarker.toList ++ '\n' :: rest))) := by
  simp [block]

theorem size_append (text more : String) : size (text ++ more) = size text + size more := by
  rw [size, String.toList_append, Text.byteSize_append]
  rfl

theorem size_block (path text : String) :
    size (block path text) =
      byteSize openMarker.toList + byteSize path.toList + size text +
      byteSize closeMarker.toList + 4 := by
  have hblock := toList_block_append path text []
  rw [List.append_nil] at hblock
  simp only [size, hblock, Text.byteSize_append, Text.byteSize_cons, Text.byteSize_nil,
    Text.utf8Size_newline]
  omega

theorem size_mark (path : String) :
    size ("\n" ++ openMarker ++ path ++ "\n") =
      byteSize openMarker.toList + byteSize path.toList + 2 := by
  simp only [size_append]
  change 1 + byteSize openMarker.toList + byteSize path.toList + 1 = _
  omega

theorem byteSize_unlines_mark (path : String) :
    byteSize (unlines [openMarker.toList ++ path.toList]) =
      byteSize openMarker.toList + byteSize path.toList + 1 := by
  rw [Text.unlines_cons, Text.byteSize_append, Text.byteSize_append]
  rfl

theorem byteSize_unlines_close :
    byteSize (unlines [closeMarker.toList, []]) = byteSize closeMarker.toList + 2 := rfl

theorem byteSize_unlines_pieces (text : String) :
    byteSize (unlines (pieces text.toList)) = size text + 1 := by
  rw [Text.unlines_pieces, Text.byteSize_append]
  rfl

variable {forest : Forest}

/-- The lines of a text and of the files behind it. -/
theorem pieces_append_render {offset : Nat}
    (h : ∀ q ∈ forest.placements offset, ∀ c ∈ q.file.toList, isPathChar c = true)
    (cs : List Char) : pieces (cs ++ forest.render.toList) = pieces cs ++ forest.lines := by
  induction forest generalizing offset cs with
  | nil => simp [Forest.render, Forest.lines]
  | file path text inside rest ihinside ihrest =>
    rw [Forest.placements, List.forall_mem_append, List.forall_mem_cons] at h
    obtain ⟨⟨hpath, hinside⟩, hrest⟩ := h
    -- Behind the closing mark a last line begins, which the files that follow end.
    have hlast := ihrest hrest []
    rw [List.nil_append] at hlast
    rw [Forest.render, Forest.lines, String.toList_append, toList_block_append,
      String.toList_append, Text.pieces_append, Text.pieces_append, Text.pieces_append,
      Text.pieces_append, hlast, ihinside hinside,
      Text.pieces_of_notMem (newline_notMem_mark hpath),
      Text.pieces_of_notMem (show '\n' ∉ closeMarker.toList by decide)]
    simp [pieces]

theorem byteSize_lines (forest : Forest) :
    byteSize (unlines forest.lines) = size forest.render := by
  induction forest with
  | nil => rfl
  | file path text inside rest ihinside ihrest =>
    rw [Forest.render, size_append, size_block, size_append, ← ihinside, ← ihrest, Forest.lines]
    simp only [Text.unlines_append, Text.byteSize_append, byteSize_unlines_mark,
      byteSize_unlines_pieces, byteSize_unlines_close]
    omega

/-- The lines of a file stand behind the mark that names it. -/
theorem Forest.exists_lines {offset : Nat} {ls : List (List Char)}
    (hls : byteSize (unlines ls) = offset + 1) : ∀ q ∈ forest.placements offset, ∃ init behind,
      ls ++ forest.lines =
        init ++ [openMarker.toList ++ q.file.toList] ++ pieces q.text.toList ++ behind ∧
      byteSize (unlines (init ++ [openMarker.toList ++ q.file.toList])) = q.offset := by
  induction forest generalizing offset ls with
  | nil => exact List.forall_mem_nil _
  | file path text inside rest ihinside ihrest =>
    rw [Forest.placements, List.forall_mem_append, List.forall_mem_cons]
    have hmark : byteSize (unlines (ls ++ [openMarker.toList ++ path.toList])) =
        offset + size ("\n" ++ openMarker ++ path ++ "\n") := by
      rw [Text.unlines_append, Text.byteSize_append, hls, byteSize_unlines_mark, size_mark]
      omega
    have htext : byteSize (unlines
        (ls ++ [openMarker.toList ++ path.toList] ++ pieces text.toList)) =
        offset + size ("\n" ++ openMarker ++ path ++ "\n") + size text + 1 := by
      rw [Text.unlines_append, Text.byteSize_append, hmark, byteSize_unlines_pieces]
      omega
    have hblock : byteSize
        (unlines (ls ++ [openMarker.toList ++ path.toList] ++ pieces text.toList ++
        inside.lines ++ [closeMarker.toList, []])) =
        offset + size (block path (text ++ inside.render)) + 1 := by
      rw [Text.unlines_append, Text.byteSize_append, Text.unlines_append,
        Text.byteSize_append, htext, byteSize_lines, size_mark, size_block, size_append,
        byteSize_unlines_close]
      omega
    refine ⟨⟨⟨ls, inside.lines ++ [closeMarker.toList, []] ++ rest.lines, ?_, hmark⟩, ?_⟩, ?_⟩
    · simp only [lines, List.append_assoc]
    · intro q hq
      obtain ⟨init, behind, heq, hsize⟩ := ihinside htext q hq
      refine ⟨init, behind ++ [closeMarker.toList, []] ++ rest.lines, ?_, hsize⟩
      simp only [lines, ← List.append_assoc] at heq ⊢
      rw [heq]
    · intro q hq
      obtain ⟨init, behind, heq, hsize⟩ := ihrest hblock q hq
      refine ⟨init, behind, ?_, hsize⟩
      simp only [lines, ← List.append_assoc] at heq ⊢
      rw [heq]

/-! ### The positions of files -/

/-- A text holds the own text of a file where its placement says, and the bytes of it have the
positions that they have in the file. -/
structure Placement.Faithful (q : Placement) (source : Source) : Prop where
  text_eq : ∃ before behind, source.text.toList = before ++ q.text.toList ++ behind ∧
    byteSize before = q.offset
  resolve_eq : ∀ i ≤ size q.text,
    source.resolve (q.offset + i) = Position.ofByte q.file q.text.toList i
  numbers_eq : ∀ i ≤ size q.text, i + 1 < 2 ^ 32 →
    ((source.resolve (q.offset + i)).line : Nat) = Text.lineNumber q.text.toList i ∧
      ((source.resolve (q.offset + i)).column : Nat) = Text.columnNumber q.text.toList i

theorem Placement.faithful_of_pieces {q : Placement} {source : Source}
    {before behind : List (List Char)}
    (hpieces : pieces source.text.toList = before ++ pieces q.text.toList ++ behind)
    (hoffset : byteSize (unlines before) = q.offset)
    (hfile : innermost source.name (before.map dropReturn) = ⟨q.file, before.length⟩)
    (htext : Unmarked q.text) : q.Faithful source := by
  have hresolve : ∀ i ≤ size q.text,
      source.resolve (q.offset + i) = Position.ofByte q.file q.text.toList i := by
    intro i hi
    rw [← hoffset]
    exact Source.resolve_within hpieces hfile htext hi
  refine ⟨⟨unlines before, _, Text.eq_append_of_pieces hpieces, hoffset⟩, hresolve, ?_⟩
  intro i hi hcounted
  rw [hresolve i hi]
  exact Position.numbers_ofByte q.file q.text.toList hcounted

/-- The bytes of a text and of the files behind it keep their positions. -/
theorem faithful_of_render {text : String} (htext : Unmarked text)
    (hfiles : ∀ q ∈ forest.placements (size text), Unmarked q.text ∧ ∀ c ∈ q.file.toList,
      isPathChar c = true)
    (name : String) :
    ∀ q ∈ ⟨name, text, 0⟩ :: forest.placements (size text),
      q.Faithful ⟨name, text ++ forest.render⟩ := by
  have hpieces : pieces (text ++ forest.render).toList = pieces text.toList ++ forest.lines := by
    rw [String.toList_append, pieces_append_render fun q hq => (hfiles q hq).2]
  refine List.forall_mem_cons.2 ⟨?_, fun q hq => ?_⟩
  · exact @Placement.faithful_of_pieces ⟨name, text, 0⟩ _ [] _ hpieces rfl rfl htext
  · obtain ⟨hunmarked, hpath⟩ := hfiles q hq
    obtain ⟨init, behind, hlines, hoffset⟩ :=
      Forest.exists_lines (byteSize_unlines_pieces text) q hq
    exact Placement.faithful_of_pieces (hpieces.trans hlines) hoffset
      (innermost_openMarker hpath name init) hunmarked

end Include

open Include

/-- Positions survive the expansion of a text, and every offset of every text has a position. -/
theorem Files.positions_of_expand :
    (∀ (source : Source) (offset : Nat), ∃ front back, source.Cut offset front back) ∧
    ∀ (files : Files) (directories included : List String) (text expanded : String),
      files.expand directories [] text = (.ok expanded, included) →
      Source.Unmarked (split text).1 →
      (∀ path ∈ included, ∀ content, files.locate directories path = .ok content →
        Source.Unmarked (split content).1) →
      ∃ forest, Includes (files.locate directories) (split text).2 [] included forest ∧
        expanded = (split text).1 ++ forest.render ∧ included.Nodup ∧
        (forest.placements (size (split text).1)).map Placement.file = included.reverse ∧
        (∀ q ∈ forest.placements (size (split text).1),
          ∃ content, files.locate directories q.file = .ok content ∧ q.text = (split content).1) ∧
        ∀ name, ∀ q ∈ ⟨name, (split text).1, 0⟩ :: forest.placements (size (split text).1),
          q.Faithful ⟨name, expanded⟩ := by
  refine ⟨Source.exists_cut, ?_⟩
  intro files directories included text expanded hexpand htext hfiles
  obtain ⟨forest, hforest, rfl⟩ := expand_eq_ok hexpand
  have hincluded := hforest.included_eq (size (split text).1)
  have hcontents := hforest.text_eq (size (split text).1)
  have hpaths := hforest.isPathChar_of_mem_placements (fun _ hmem => isPathChar_of_split hmem)
    (size (split text).1)
  refine ⟨forest, hforest, rfl, hforest.nodup List.nodup_nil, ?_, hcontents,
    faithful_of_render htext ?_⟩
  · rw [hincluded, List.append_nil, List.reverse_reverse]
  · intro q hq
    obtain ⟨content, hcontent, heq⟩ := hcontents q hq
    have hmem : q.file ∈ included := by
      rw [hincluded, List.append_nil, List.mem_reverse]
      exact List.mem_map_of_mem hq
    rw [heq]
    exact ⟨hfiles _ hmem content hcontent, hpaths q hq⟩

/-- A file that includes another one, which is found in a directory of libraries. -/
def Files.nestedLibrary : Files :=
  ((default : Files).place "io.fl" (.file (encodeText "$include <mem.fl>\nput"))).place
    "stdlib/mem.fl" (.file (encodeText "get\nset"))

theorem Files.positions_of_expand_nestedLibrary :
    nestedLibrary.expand ["stdlib"] [] "$include <io.fl>a\n$include <mem.fl>b" =
      (.ok "a\nb\n//@file io.fl\n\nput\n//@file mem.fl\nget\nset\n//@endfile\n\n//@endfile\n",
        ["mem.fl", "io.fl"]) ∧
    Source.Unmarked (split "$include <io.fl>a\n$include <mem.fl>b").1 ∧
    (∀ path ∈ ["mem.fl", "io.fl"], ∀ content, nestedLibrary.locate ["stdlib"] path = .ok content →
      Source.Unmarked (split content).1) ∧
    ∃ forest, Includes (nestedLibrary.locate ["stdlib"]) ["io.fl", "mem.fl"] [] ["mem.fl", "io.fl"]
      forest ∧ (forest.placements 3).map Placement.file = ["io.fl", "mem.fl"] ∧
      ∀ q ∈ ⟨"main.fl", "a\nb", 0⟩ :: forest.placements 3,
        q.Faithful ⟨"main.fl",
          "a\nb\n//@file io.fl\n\nput\n//@file mem.fl\nget\nset\n//@endfile\n\n//@endfile\n"⟩ := by
  have hexpand : nestedLibrary.expand ["stdlib"] [] "$include <io.fl>a\n$include <mem.fl>b" =
      (.ok "a\nb\n//@file io.fl\n\nput\n//@file mem.fl\nget\nset\n//@endfile\n\n//@endfile\n",
        ["mem.fl", "io.fl"]) := by
    decide +kernel
  have hsplit : split "$include <io.fl>a\n$include <mem.fl>b" = ("a\nb", ["io.fl", "mem.fl"]) := by
    decide +kernel
  have htext : Source.Unmarked (split "$include <io.fl>a\n$include <mem.fl>b").1 := by
    rw [hsplit]
    decide
  have hmem : nestedLibrary.locate ["stdlib"] "mem.fl" = .ok "get\nset" := by decide +kernel
  have hio : nestedLibrary.locate ["stdlib"] "io.fl" = .ok "$include <mem.fl>\nput" := by
    decide +kernel
  have hfiles : ∀ path ∈ ["mem.fl", "io.fl"], ∀ content,
      nestedLibrary.locate ["stdlib"] path = .ok content → Source.Unmarked (split content).1 := by
    refine List.forall_mem_cons.2 ⟨?_, List.forall_mem_singleton.2 ?_⟩
    · intro content hcontent
      cases hmem.symm.trans hcontent
      decide +kernel
    · intro content hcontent
      cases hio.symm.trans hcontent
      decide +kernel
  obtain ⟨forest, hforest, -, -, hpaths, -, hfaithful⟩ :=
    positions_of_expand.2 nestedLibrary ["stdlib"] _ _ _ hexpand htext hfiles
  rw [hsplit] at hforest hpaths hfaithful
  exact ⟨hexpand, htext, hfiles, forest, hforest, hpaths, hfaithful "main.fl"⟩

end Firestorm
