import Firestorm.Include

/-!
# The files of an expanded text

The expansion of a text is the text without its directives, and behind it the files that they name,
each with the files inside it and between two marks. This file says which files these are, in which
order they stand, and where the text of each of them starts.

## Main definitions

* `Include.Forest`, `Include.Forest.render`, `Include.Forest.placements`, `Include.Includes`,
  `Files.locate`.

## Main results

* `Include.expandWithin_eq_ok`, `Include.isPathChar_of_split`.
* `Files.expand_eq_ok`: the same of a collection of files.
* `Include.Includes.included_eq`, `Include.Includes.nodup`: every path is included once.
-/

namespace Firestorm

namespace Include

variable {text : String}

/-- Files that follow one another, each with its own text and the files inside it. -/
inductive Forest
  | nil
  | file (path text : String) (inside rest : Forest)

namespace Forest

/-- The text of files, each between the marks that name it. -/
def render : Forest → String
  | nil => ""
  | file path text inside rest => block path (text ++ inside.render) ++ rest.render

end Forest

/-- The own text of a file, and the offset at which it starts. -/
structure Placement where
  file : String
  text : String
  offset : Nat

/-- The number of bytes of a text. -/
def size (text : String) : Nat := Text.byteSize text.toList

/-- The own texts of files whose text starts at an offset. -/
def Forest.placements : (offset : Nat) → Forest → List Placement
  | _, nil => []
  | offset, file path text inside rest =>
    let start := offset + size ("\n" ++ Source.openMarker ++ path ++ "\n")
    ⟨path, text, start⟩ :: inside.placements (start + size text) ++
      rest.placements (offset + size (block path (text ++ inside.render)))

/-- The files that paths lead to, where `before` and `after` are the paths that have been included
before and after. A path that has been included already is left out. -/
inductive Includes (find : String → Except IncludeError String) :
    (paths before after : List String) → Forest → Prop
  | nil {before} : Includes find [] before before .nil
  | again {path paths before after content forest} (hfind : find path = .ok content)
    (hseen : path ∈ before)
    (hrest : Includes find paths before after forest) :
      Includes find (path :: paths) before after forest
  | fresh {path paths before middle after content inside forest} (hfind : find path = .ok content)
    (hseen : path ∉ before)
    (hinside : Includes find (split content).2 (path :: before) middle inside)
    (hrest : Includes find paths middle after forest) :
    Includes find (path :: paths) before after (.file path (split content).1 inside forest)

/-! ### Expansion -/

section

variable {α β : Type} {s s' : List String}

theorem bind_eq_ok {x : Expansion Id α} {f : α → Expansion Id β} {b : β} :
    (x >>= f) s = (.ok b, s') ↔ ∃ a s₁, x s = (.ok a, s₁) ∧ f a s₁ = (.ok b, s') := by
  change (ExceptT.bindCont f (x s).1 (x s).2) = _ ↔ _
  rcases x s with ⟨e | a, s₁⟩
  · refine iff_of_false (fun h => ?_) ?_
    · cases h
    · rintro ⟨_, _, heq, -⟩
      cases heq
  · constructor
    · exact fun h => ⟨a, s₁, rfl, h⟩
    · rintro ⟨_, _, heq, h⟩
      cases heq
      exact h

theorem pure_eq_ok {a b : α} : (pure a : Expansion Id α) s = (.ok b, s') ↔ a = b ∧ s = s' := by
  change (Except.ok a, s) = (Except.ok b, s') ↔ _
  simp

theorem blocks_eq_ok {find : String → Id (Except IncludeError String)}
    {nested : (path text : String) → Expansion Id String}
    (hnested : ∀ {path content text seen seen'}, nested path content seen = (.ok text, seen') →
      ∃ forest, Includes find (split content).2 seen seen' forest ∧
        text = (split content).1 ++ forest.render) {paths : List String}
    (h : blocks find nested paths s = (.ok text, s')) :
    ∃ forest, Includes find paths s s' forest ∧ text = forest.render := by
  induction paths generalizing s text with
  | nil =>
    rw [blocks, pure_eq_ok] at h
    obtain ⟨rfl, rfl⟩ := h
    exact ⟨.nil, .nil, rfl⟩
  | cons path paths ih =>
    rw [blocks, bind_eq_ok] at h
    obtain ⟨content, s₁, hfind, h⟩ := h
    obtain ⟨hfound, rfl⟩ := Prod.mk.inj (show (find path, s) = (.ok content, s₁) from hfind)
    change (if path ∈ s then blocks find nested paths else do
      modify (path :: ·)
      let inner ← nested path content
      return block path inner ++ (← blocks find nested paths)) s = _ at h
    split at h
    · next hseen =>
      obtain ⟨forest, hincludes, rfl⟩ := ih h
      exact ⟨forest, .again hfound hseen hincludes, rfl⟩
    · next hseen =>
      simp only [bind_eq_ok, pure_eq_ok] at h
      obtain ⟨_, s₁, hmodify, inner, s₂, hinner, text', s₃, hrest, rfl, rfl⟩ := h
      obtain ⟨-, rfl⟩ := Prod.mk.inj (show (Except.ok (), path :: s) = (.ok (), s₁) from hmodify)
      obtain ⟨inside, hinside, rfl⟩ := hnested hinner
      obtain ⟨forest, hforest, rfl⟩ := ih hrest
      exact ⟨.file path (split content).1 inside forest, .fresh hfound hseen hinside hforest, rfl⟩

/-- An expanded text is that of the files that its directives name. -/
theorem expandWithin_eq_ok {find : String → Id (Except IncludeError String)} {depth : Nat}
    {content : String} (h : expandWithin find depth content s = (.ok text, s')) :
    ∃ forest, Includes find (split content).2 s s' forest ∧
      text = (split content).1 ++ forest.render := by
  induction depth generalizing content text s s' with
  | zero =>
    rw [expandWithin] at h
    simp only [bind_eq_ok, pure_eq_ok] at h
    obtain ⟨text', s₁, hblocks, rfl, rfl⟩ := h
    obtain ⟨forest, hforest, rfl⟩ := blocks_eq_ok (fun hnested => by cases hnested) hblocks
    exact ⟨forest, hforest, rfl⟩
  | succ depth ih =>
    rw [expandWithin] at h
    simp only [bind_eq_ok, pure_eq_ok] at h
    obtain ⟨text', s₁, hblocks, rfl, rfl⟩ := h
    obtain ⟨forest, hforest, rfl⟩ := blocks_eq_ok ih hblocks
    exact ⟨forest, hforest, rfl⟩

end

/-! ### Paths -/

theorem isPathChar_of_path? {cs rest : List Char} {path : String}
    (h : path? cs = some (path, rest)) : ∀ c ∈ path.toList, isPathChar c = true := by
  unfold path? at h
  split at h
  · next ds _ =>
    dsimp only at h
    split at h
    · cases h
    · split at h
      · next hpath =>
        cases h
        rw [Bool.and_eq_true, List.all_eq_true] at hpath
        rw [String.toList_ofList]
        exact hpath.2
      · cases h
  · cases h

theorem isPathChar_of_splitChars (cs : List Char) :
    ∀ path ∈ (splitChars cs).2, ∀ c ∈ path.toList, isPathChar c = true := by
  fun_induction splitChars cs with
  | case1 cs path rest hdirective _ _ _ hrest ih =>
    obtain ⟨_, -, hpath⟩ := Option.bind_eq_some_iff.1 hdirective
    rw [hrest] at ih
    exact List.forall_mem_cons.2 ⟨isPathChar_of_path? hpath, ih⟩
  | case2 => exact List.forall_mem_nil _
  | case3 _ _ _ _ _ hrest ih =>
    rw [hrest] at ih
    exact ih

/-- The paths of directives consist of letters, digits and a few signs. -/
theorem isPathChar_of_split {path : String} (h : path ∈ (split text).2) :
    ∀ c ∈ path.toList, isPathChar c = true :=
  isPathChar_of_splitChars text.toList path h

/-! ### Every path is included once -/

namespace Includes

-- The equations are generated once, in front of the proofs that open them.
attribute [local simp] Forest.placements

variable {find : String → Except IncludeError String} {paths before after : List String}
  {forest : Forest}

/-- The paths of files have been included behind those before, in the order in which their texts
stand. -/
theorem included_eq (h : Includes find paths before after forest) (offset : Nat) :
    after = ((forest.placements offset).map Placement.file).reverse ++ before := by
  induction h generalizing offset with
  | nil => rfl
  | again _ _ _ ih => exact ih offset
  | fresh _ _ _ _ ihinside ihrest =>
    rw [Forest.placements, List.map_append, List.map_cons, List.reverse_append, List.reverse_cons,
      List.append_assoc, List.append_assoc, List.singleton_append, ← ihinside, ← ihrest]

theorem nodup (h : Includes find paths before after forest) (hbefore : before.Nodup) :
    after.Nodup := by
  induction h with
  | nil => exact hbefore
  | again _ _ _ ih => exact ih hbefore
  | fresh _ hseen _ _ ihinside ihrest =>
    exact ihrest (ihinside (List.nodup_cons.2 ⟨hseen, hbefore⟩))

/-- The own text of a file is the text that is found without its directives. -/
theorem text_eq (h : Includes find paths before after forest) (offset : Nat) :
    ∀ q ∈ forest.placements offset, ∃ content, find q.file = .ok content ∧
      q.text = (split content).1 := by
  induction h generalizing offset with
  | nil => exact List.forall_mem_nil _
  | again _ _ _ ih => exact ih offset
  | fresh hfind _ _ _ ihinside ihrest =>
    rw [Forest.placements]
    refine List.forall_mem_append.2 ⟨List.forall_mem_cons.2 ⟨⟨_, hfind, rfl⟩, ihinside _⟩, ihrest _⟩

theorem isPathChar_of_mem_placements (h : Includes find paths before after forest)
    (hpaths : ∀ path ∈ paths, ∀ c ∈ path.toList, isPathChar c = true) (offset : Nat) :
    ∀ q ∈ forest.placements offset, ∀ c ∈ q.file.toList, isPathChar c = true := by
  induction h generalizing offset with
  | nil => exact List.forall_mem_nil _
  | again _ _ _ ih => exact ih (List.forall_mem_cons.1 hpaths).2 offset
  | fresh _ _ _ _ ihinside ihrest =>
    obtain ⟨hpath, hpaths⟩ := List.forall_mem_cons.1 hpaths
    have hinside := ihinside fun _ hmem => isPathChar_of_split hmem
    rw [Forest.placements]
    exact List.forall_mem_append.2 ⟨List.forall_mem_cons.2 ⟨hpath, hinside _⟩, ihrest hpaths _⟩

end Includes

end Include

/-- The text that a path leads to. -/
def Files.locate (files : Files) (directories : List String) (path : String) :
    Except IncludeError String :=
  Id.run (Include.search (fun candidate => files.readText candidate) path
    (Include.candidates directories path))

theorem Files.expand_eq_ok {files : Files} {directories before after : List String}
    {text expanded : String} (h : files.expand directories before text = (.ok expanded, after)) :
    ∃ forest, Include.Includes (files.locate directories) (Include.split text).2 before after
      forest ∧ expanded = (Include.split text).1 ++ forest.render :=
  Include.expandWithin_eq_ok h

end Firestorm
