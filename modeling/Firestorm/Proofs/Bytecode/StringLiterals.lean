import Firestorm.Proofs.Bytecode.Encoding
import Firestorm.Proofs.Bytecode.Scoping

/-!
# String literals in bytecode text

The line of a string literal is divided from the others, trimmed, tested for directives and labels,
and split at blanks before its content is read, and the content may hold anything that these steps
look for. This file proves that the content is read back, and that the line changes nothing for the
others.

## Main definitions

* `Bytecode.stringItems`.

## Main results

* `Bytecode.sectionsItems_insert`.
* `Bytecode.encode_string_literal`: the same for the encoded text.
-/

namespace Firestorm.Bytecode

variable {sections front back : List Section} {kind : SectionKind} {name content : String}
  {first last : List CodeLine}

/-- The items of a string literal: its operation, its number of bytes, and its bytes with a zero
byte behind them. -/
def stringItems (content : String) : List Item :=
  [.byte Opcode.string.byte, .quad (Int64.ofNat (Text.utf8 content.toList).length),
    .bytes (Text.utf8 content.toList ++ [0])]

theorem sectionsItems_append (globals : List String) (front back : List Section) :
    sectionsItems globals (front ++ back) =
      sectionsItems globals front ++ sectionsItems (front.foldl globalsThrough globals) back := by
  induction front generalizing globals with
  | nil => rfl
  | cons s front ih =>
    rw [List.cons_append, sectionsItems, ih, sectionsItems, List.append_assoc, List.foldl_cons]

/-- A string literal declares nothing, so that it adds its items to those of the sections around
it. -/
theorem sectionsItems_insert (front back : List Section) (kind : SectionKind) (name : String)
    (first last : List CodeLine) : ∃ behind,
      sectionsItems [] (front ++ ⟨kind, name, first ++ last⟩ :: back) =
        sectionsItems [] (front ++ [⟨kind, name, first⟩]) ++ behind ∧
      ∀ content, sectionsItems []
        (front ++ ⟨kind, name, first ++ literal (.str content) :: last⟩ :: back) =
        sectionsItems [] (front ++ [⟨kind, name, first⟩]) ++ (stringItems content ++ behind) := by
  have hthrough : ∀ content, globalsThrough (front.foldl globalsThrough [])
      ⟨kind, name, first ++ literal (.str content) :: last⟩ =
        globalsThrough (front.foldl globalsThrough []) ⟨kind, name, first ++ last⟩ := by
    intro content
    rw [globalsThrough, Naming.through_append, Naming.through_cons, globalsThrough,
      Naming.through_append]
    rfl
  refine ⟨(Naming.through ⟨front.foldl globalsThrough [], []⟩ first).codeItems name last ++
    sectionsItems (globalsThrough (front.foldl globalsThrough []) ⟨kind, name, first ++ last⟩) back,
    ?_, fun content => ?_⟩
  · simp only [sectionsItems_append, sectionsItems, sectionItems, Naming.codeItems_append,
      List.cons_append, List.append_assoc, List.nil_append]
  · simp only [sectionsItems_append, sectionsItems, hthrough, sectionItems, Naming.codeItems_append,
      Naming.codeItems, List.cons_append, List.append_assoc, List.nil_append]
    rfl

theorem readable_literal (content : String) : Readable (literal (.str content)) := trivial

theorem known_literal (content : String) : Known (literal (.str content)) := by
  intro callee h
  cases h

/-- Whatever holds of the lines around a string literal and of the literal itself holds of all
lines. -/
theorem forall_section_insert {P : CodeLine → Prop} (hP : P (literal (.str content)))
    (h : ∀ s ∈ front ++ ⟨kind, name, first ++ last⟩ :: back, ∀ line ∈ s.code, P line) :
    ∀ s ∈ front ++ ⟨kind, name, first ++ literal (.str content) :: last⟩ :: back, ∀ line ∈ s.code,
      P line := by
  simp only [List.forall_mem_append, List.forall_mem_cons] at h ⊢
  obtain ⟨hfront, ⟨hfirst, hlast⟩, hback⟩ := h
  exact ⟨hfront, ⟨hfirst, hP, hlast⟩, hback⟩

/-- Encoding succeeds exactly if the machine provides every native function that is called. -/
theorem encode_renderAll_ok_iff (hs : ∀ s ∈ sections, SectionReadable s) {items : List Item} :
    encode (Section.renderAll sections) = .ok items ↔
      (∀ s ∈ sections, ∀ line ∈ s.code, Known line) ∧ items = sectionsItems [] sections := by
  by_cases hknown : ∀ s ∈ sections, ∀ line ∈ s.code, Known line
  · rw [encode_renderAll hs hknown, Except.ok.injEq, eq_comm]
    exact (and_iff_right hknown).symm
  · obtain ⟨m, callee, herror, -⟩ := encode_renderAll_unknown hs hknown
    rw [herror]
    simp [hknown]

/-- A line with a string literal, anywhere among the lines of readable sections, is encoded as the
literal and leaves the items of the other lines as they are. -/
theorem encode_string_literal
    (hs : ∀ s ∈ front ++ ⟨kind, name, first ++ last⟩ :: back, SectionReadable s)
    (content : String) :
    let without := Section.renderAll (front ++ ⟨kind, name, first ++ last⟩ :: back)
    let extended := Section.renderAll
      (front ++ ⟨kind, name, first ++ literal (.str content) :: last⟩ :: back)
    ((∃ items, encode extended = .ok items) ↔ ∃ items, encode without = .ok items) ∧
    ∀ items, encode without = .ok items → ∃ before behind,
      encode (Section.renderAll (front ++ [⟨kind, name, first⟩])) = .ok before ∧
      items = before ++ behind ∧
      encode extended = .ok (before ++ (stringItems content ++ behind)) := by
  intro without extended
  have hs' : ∀ s ∈ front ++ ⟨kind, name, first ++ literal (.str content) :: last⟩ :: back,
      SectionReadable s := by
    have hcode := forall_section_insert (readable_literal content) fun s h => (hs s h).code
    simp only [List.forall_mem_append, List.forall_mem_cons] at hs hcode ⊢
    exact ⟨hs.1, ⟨hs.2.1.name,
      List.forall_mem_append.2 ⟨hcode.2.1.1, List.forall_mem_cons.2 hcode.2.1.2⟩⟩, hs.2.2⟩
  have hbefore : ∀ s ∈ front ++ [⟨kind, name, first⟩], SectionReadable s := by
    simp only [List.forall_mem_append, List.forall_mem_cons] at hs ⊢
    exact ⟨hs.1, ⟨hs.2.1.name, fun line hline => hs.2.1.code line (List.mem_append_left _ hline)⟩,
      List.forall_mem_nil _⟩
  have hextended {items : List Item} : encode extended = .ok items ↔ _ :=
    encode_renderAll_ok_iff hs'
  have hwithout {items : List Item} : encode without = .ok items ↔ _ := encode_renderAll_ok_iff hs
  obtain ⟨behind, hitems, hinsert⟩ := sectionsItems_insert front back kind name first last
  refine ⟨⟨?_, ?_⟩, fun items h => ?_⟩
  · rintro ⟨items, h⟩
    refine ⟨_, hwithout.2 ⟨?_, rfl⟩⟩
    have hknown := (hextended.1 h).1
    simp only [List.forall_mem_append, List.forall_mem_cons] at hknown ⊢
    exact ⟨hknown.1, ⟨hknown.2.1.1, hknown.2.1.2.2⟩, hknown.2.2⟩
  · rintro ⟨items, h⟩
    exact ⟨_, hextended.2 ⟨forall_section_insert (known_literal content) (hwithout.1 h).1, rfl⟩⟩
  · obtain ⟨hknown, rfl⟩ := hwithout.1 h
    refine ⟨_, behind, encode_renderAll hbefore ?_, hitems, hextended.2
      ⟨forall_section_insert (known_literal content) hknown, (hinsert content).symm⟩⟩
    simp only [List.forall_mem_append, List.forall_mem_cons] at hknown ⊢
    exact ⟨hknown.1, hknown.2.1.1, List.forall_mem_nil _⟩

/-- A literal with quotation marks, backslashes, line ends, a directive and a colon, between other
lines. -/
theorem encode_string_literal_hostile :
    SectionReadable ⟨.function, "spark", [number 0] ++ [plain .return_]⟩ ∧ ∃ before behind,
      encode (Section.renderAll [⟨.function, "spark", [number 0]⟩]) = .ok before ∧
      encode (Section.renderAll [⟨.function, "spark",
        [number 0] ++ literal (.str " \"\\n\r\n@end function\n1:\\") :: [plain .return_]⟩]) =
          .ok (before ++ (stringItems " \"\\n\r\n@end function\n1:\\" ++ behind)) := by
  have hreadable : SectionReadable ⟨.function, "spark", [number 0] ++ [plain .return_]⟩ :=
    ⟨by decide, by simp [number, plain, Readable]⟩
  have hs : ∀ s ∈ [] ++ ⟨.function, "spark", [number 0] ++ [plain .return_]⟩ :: [],
      SectionReadable s :=
    List.forall_mem_singleton.2 hreadable
  have hknown : ∀ line ∈ [number 0] ++ [plain .return_], Known line := by
    simp [number, plain, Known]
  obtain ⟨-, hinsert⟩ := encode_string_literal hs " \"\\n\r\n@end function\n1:\\"
  obtain ⟨before, behind, hbefore, -, hextended⟩ :=
    hinsert _ (encode_renderAll hs (List.forall_mem_singleton.2 hknown))
  exact ⟨hreadable, before, behind, hbefore, hextended⟩

end Firestorm.Bytecode
