import Mathlib.Data.Set.Card
import Firestorm.Proofs.Include.Completeness

/-!
# How often a file is included

An expansion remembers the paths of the directives that it has followed, as they are written. So no
path is included twice, but a file that directives name by several paths, with a dot in front or
below a directory in which files are looked for, is included once under each of them.

## Main definitions

* `Files.follow`, `Files.home?`.

## Main results

* `Files.exists_home_of_locate`.
* `Files.included_once_per_path`: a file stands in an expanded text once for each path that leads to
  it.
* `Files.included_twice_aliased`: a file that two paths lead to stands there twice.
-/

namespace Firestorm

open Include

/-- Directives lead only to known paths if the files at known paths name only known paths. -/
theorem Include.Leads.mem_of_closed {find : String → Except IncludeError String}
    {paths known : List String} {path : String} (h : Leads find paths path) (hpaths : paths ⊆ known)
    (hknown : ∀ outer ∈ known, (find outer).toOption.all fun content => (split content).2 ⊆ known) :
    path ∈ known := by
  induction h with
  | direct hmem => exact hpaths hmem
  | inside _ hfind hmem ih =>
    have hall := hknown _ ih
    rw [hfind] at hall
    exact (of_decide_eq_true hall) hmem

namespace Files

variable {files : Files} {directories : List String} {path content : String}

/-- The location that a path leads to. -/
def follow (files : Files) (path : String) : Except FileError Location := do
  checkPath path
  (Path.pieces path).foldlM files.step (Location.start path)

/-- The location at which the path of a directive is found: that of the first candidate with a
text. -/
def home? (files : Files) (directories : List String) (path : String) : Option Location := do
  let candidate ← (candidates directories path).find? fun c => (files.readText c).toOption.isSome
  (files.follow candidate).toOption

/-- What is read under a path is the content of the file at the location that it leads to. -/
theorem exists_follow_of_read {bytes : List UInt8} (h : files.read path = .ok bytes) :
    ∃ l, files.follow path = .ok l ∧ files.at? l = some (.file bytes) := by
  unfold read at h
  obtain ⟨_, hcheck, h⟩ := Fallible.except_bind_eq_ok.1 h
  obtain ⟨l, hfold, h⟩ := Fallible.except_bind_eq_ok.1 h
  refine ⟨l, Fallible.except_bind_eq_ok.2 ⟨_, hcheck, hfold⟩, ?_⟩
  cases hat : files.at? l with
  | none =>
    rw [hat] at h
    cases h
  | some entry =>
    rw [hat] at h
    cases entry with
    | directory => cases h
    | file content =>
      cases h
      rfl

/-- A search that succeeds has read the first candidate with a text. -/
theorem find?_of_search {paths : List String}
    (h : search (m := Id) (fun candidate => files.readText candidate) path paths = .ok content) :
    ∃ candidate, paths.find? (fun c => (files.readText c).toOption.isSome) = some candidate ∧
      files.readText candidate = .ok content := by
  induction paths with
  | nil => cases h
  | cons candidate paths ih =>
    rw [search] at h
    cases hread : files.readText candidate with
    | ok text =>
      rw [hread] at h
      cases h
      exact ⟨candidate, by simp [hread, Except.toOption], hread⟩
    | error e =>
      rw [hread] at h
      cases e with
      | notFound => simpa [hread, Except.toOption] using ih h
      | _ => cases h

/-- A path whose text is found is found at the location of a file with that text. -/
theorem exists_home_of_locate (h : files.locate directories path = .ok content) :
    ∃ l bytes, files.home? directories path = some l ∧ files.at? l = some (.file bytes) ∧
      decodeText bytes = .ok content := by
  obtain ⟨candidate, hfind, hread⟩ := find?_of_search h
  obtain ⟨bytes, hbytes, hdecode⟩ := Fallible.except_bind_eq_ok.1 hread
  obtain ⟨l, hfollow, hat⟩ := exists_follow_of_read hbytes
  refine ⟨l, bytes, ?_, hat, hdecode⟩
  rw [home?, hfind]
  exact congrArg Except.toOption hfollow

/-- The number of blocks of a file is the number of paths that are found at it. -/
theorem countP_placements {placements : List Placement} {P : String → Prop}
    (home : String → Option Location) (hnodup : (placements.map Placement.file).Nodup)
    (hmem : ∀ path, path ∈ placements.map Placement.file ↔ P path) (l : Location) :
    placements.countP (fun q => home q.file = some l) =
    {path | P path ∧ home path = some l}.ncard := by
  have hset : {path | P path ∧ home path = some l} =
      ((placements.map Placement.file).filter fun path => home path = some l).toFinset := by
    ext path
    simp [← hmem]
  rw [hset, Set.ncard_coe_finset, List.toFinset_card_of_nodup (hnodup.filter _),
    ← List.countP_eq_length_filter, List.countP_map]
  rfl

/-- No file has two blocks if and only if no two paths are found at the same one. -/
theorem nodup_homes_iff {placements : List Placement} {P : String → Prop}
    (home : String → Option Location) (hnodup : (placements.map Placement.file).Nodup)
    (hmem : ∀ path, path ∈ placements.map Placement.file ↔ P path) :
    (placements.map fun q => home q.file).Nodup ↔ Set.InjOn home {path | P path} := by
  have hmap : (placements.map fun q => home q.file) = (placements.map Placement.file).map home := by
    rw [List.map_map]
    rfl
  rw [hmap, List.nodup_map_iff_inj_on hnodup]
  simp only [hmem]
  exact ⟨fun h p hp q hq => h p hp q hq, fun h p hp q hq => h hp hq⟩

/-- An expanded text holds one block for each path to which directives lead, with the text of the
file at which the path is found. A file therefore stands in it as often as there are such paths that
are found at the file, and no file stands there twice if and only if no two of these paths are found
at the same one. -/
theorem included_once_per_path {text expanded : String} {included : List String}
    (h : files.expand directories [] text = (.ok expanded, included)) :
    ∃ forest : Forest, expanded = (split text).1 ++ forest.render ∧
      ((forest.placements (size (split text).1)).map Placement.file).Nodup ∧
      (∀ path, path ∈ (forest.placements (size (split text).1)).map Placement.file ↔
        Leads (files.locate directories) (split text).2 path) ∧
      (∀ q ∈ forest.placements (size (split text).1), ∃ l bytes content,
        files.home? directories q.file = some l ∧ files.at? l = some (.file bytes) ∧
        decodeText bytes = .ok content ∧ q.text = (split content).1) ∧
      (∀ l, (forest.placements (size (split text).1)).countP
          (fun q => files.home? directories q.file = some l) =
        {path | Leads (files.locate directories) (split text).2 path ∧
          files.home? directories path = some l}.ncard) ∧
      (((forest.placements (size (split text).1)).map fun q =>
        files.home? directories q.file).Nodup ↔
        Set.InjOn (files.home? directories)
          {path | Leads (files.locate directories) (split text).2 path}) := by
  obtain ⟨forest, hforest, rfl⟩ := expand_eq_ok h
  have hnodup := hforest.nodup_placements (size (split text).1)
  have hmem := hforest.mem_placements_iff_leads (size (split text).1)
  refine ⟨forest, rfl, hnodup, hmem, ?_, countP_placements _ hnodup hmem,
    nodup_homes_iff _ hnodup hmem⟩
  intro q hq
  obtain ⟨content, hfind, htext⟩ := hforest.text_eq _ q hq
  obtain ⟨l, bytes, hhome, hat, hdecode⟩ := exists_home_of_locate hfind
  exact ⟨l, bytes, content, hhome, hat, hdecode, htext⟩

/-- A file in the working directory, and one below a directory that includes it. -/
def aliasedLibrary : Files :=
  ((default : Files).place "a.fl" (.file (encodeText "int a;"))).place "lib/b.fl"
    (.file (encodeText "$include <a.fl>int b;"))

/-- Two files that are included under one path each, one of them found below a directory, stand
there once. -/
theorem included_once_per_path_aliasedLibrary :
    aliasedLibrary.expand ["lib"] [] "$include <b.fl>$include <a.fl>" =
      (.ok "\n//@file b.fl\nint b;\n//@file a.fl\nint a;\n//@endfile\n\n//@endfile\n",
        ["a.fl", "b.fl"]) ∧
    ∃ forest : Forest, "\n//@file b.fl\nint b;\n//@file a.fl\nint a;\n//@endfile\n\n//@endfile\n" =
      (split "$include <b.fl>$include <a.fl>").1 ++ forest.render ∧
      ((forest.placements (size (split "$include <b.fl>$include <a.fl>").1)).map fun q =>
        aliasedLibrary.home? ["lib"] q.file).Nodup := by
  have hexpand : aliasedLibrary.expand ["lib"] [] "$include <b.fl>$include <a.fl>" =
      (.ok "\n//@file b.fl\nint b;\n//@file a.fl\nint a;\n//@endfile\n\n//@endfile\n",
        ["a.fl", "b.fl"]) := by
    decide +kernel
  have hleads : ∀ path, Leads (aliasedLibrary.locate ["lib"])
      (split "$include <b.fl>$include <a.fl>").2 path → path ∈ ["a.fl", "b.fl"] := fun path h =>
    h.mem_of_closed (by decide +kernel) (by decide +kernel)
  have hhomes : ∀ p ∈ ["a.fl", "b.fl"], ∀ q ∈ ["a.fl", "b.fl"],
      aliasedLibrary.home? ["lib"] p = aliasedLibrary.home? ["lib"] q → p = q := by
    decide +kernel
  obtain ⟨forest, htext, -, -, -, -, hnodup⟩ := included_once_per_path hexpand
  exact ⟨hexpand, forest, htext, hnodup.2 fun p hp q hq => hhomes p (hleads p hp) q (hleads q hq)⟩

/-- A file that two paths lead to, one of them with a dot in front, stands in the text twice. -/
theorem included_twice_aliased :
    aliasedLibrary.home? [] "a.fl" = some ["a.fl"] ∧ aliasedLibrary.home? [] "./a.fl" =
    some ["a.fl"] ∧ aliasedLibrary.expand [] [] "$include <a.fl>$include <./a.fl>" =
      (.ok "\n//@file a.fl\nint a;\n//@endfile\n\n//@file ./a.fl\nint a;\n//@endfile\n",
        ["./a.fl", "a.fl"]) := by
  decide +kernel

end Files

end Firestorm
