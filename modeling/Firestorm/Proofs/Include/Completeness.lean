import Mathlib.Data.Finset.Card
import Firestorm.Proofs.Fallible
import Firestorm.Proofs.Include.Expansion

/-!
# The expansion of a text ends and is complete

Files may include one another in circles, and themselves. Each level of the expansion includes a
path that has not been included before, and the paths that can be included are those of the
directives in the text and in the files. So the expansion ends before the bound on its depth is
reached, and a larger bound changes nothing. It fails only because of a path that cannot be read,
and if it succeeds it holds a block for every path to which directives lead.

## Main definitions

* `Include.Leads`, `Include.unseen`, `Include.nestedAt`, `Files.includePaths`.

## Main results

* `Include.Includes.mem_iff_leads`, `Include.expandWithin_congr`,
  `Include.leads_of_expandWithin_eq_error`.
* `Files.expand_complete`: the expansion of a text ends and is complete.
-/

namespace Firestorm

namespace Include

/-- Directives lead to a path from the directives of a text, whose paths are given. -/
inductive Leads (find : String → Except IncludeError String) (paths : List String) : String → Prop
  | direct {path} (h : path ∈ paths) : Leads find paths path
  | inside {outer content path} (houter : Leads find paths outer) (hfind : find outer = .ok content)
    (h : path ∈ (split content).2) : Leads find paths path

/-! ### The files of an expanded text -/

namespace Includes

variable {find : String → Except IncludeError String} {paths before after : List String}
  {forest : Forest}

theorem subset (h : Includes find paths before after forest) : before ⊆ after := by
  induction h with
  | nil => exact List.Subset.refl _
  | again _ _ _ ih => exact ih
  | fresh _ _ _ _ ihinside ihrest =>
    exact List.Subset.trans (List.subset_of_cons_subset ihinside) ihrest

theorem paths_subset (h : Includes find paths before after forest) : paths ⊆ after := by
  induction h with
  | nil => exact List.nil_subset _
  | again _ hseen hrest ih => exact List.cons_subset.2 ⟨hrest.subset hseen, ih⟩
  | fresh _ _ hinside hrest _ ihrest =>
    exact List.cons_subset.2 ⟨hrest.subset (hinside.subset (List.mem_cons_self ..)), ihrest⟩

/-- What a file includes is included once all of its block has been read. Files that are still open
belong to those before. -/
theorem closed (h : Includes find paths before after forest) :
    ∀ path ∈ after, path ∉ before → ∃ content, find path = .ok content ∧
      (split content).2 ⊆ after := by
  induction h with
  | nil => exact fun path hmem hnew => absurd hmem hnew
  | again _ _ _ ih => exact ih
  | @fresh path paths before middle after content inside forest hfind _ hinside hrest ihinside
    ihrest =>
    intro other hmem hnew
    by_cases hmiddle : other ∈ middle
    · by_cases hpath : other = path
      · subst hpath
        exact ⟨content, hfind, List.Subset.trans hinside.paths_subset hrest.subset⟩
      · obtain ⟨content', hfind', hsubset⟩ := ihinside other hmiddle (by simp [hpath, hnew])
        exact ⟨content', hfind', List.Subset.trans hsubset hrest.subset⟩
    · exact ihrest other hmem hmiddle

theorem leads_of_mem {roots : List String} (h : Includes find paths before after forest)
    (hpaths : ∀ path ∈ paths, Leads find roots path) :
    ∀ path ∈ after, path ∈ before ∨ Leads find roots path := by
  induction h with
  | nil => exact fun path hmem => .inl hmem
  | again _ _ _ ih => exact ih (List.forall_mem_cons.1 hpaths).2
  | fresh hfind _ _ _ ihinside ihrest =>
    obtain ⟨hpath, hpaths⟩ := List.forall_mem_cons.1 hpaths
    intro other hmem
    refine (ihrest hpaths other hmem).elim (fun hmiddle => ?_) .inr
    refine (ihinside (fun _ hinside => .inside hpath hfind hinside) other hmiddle).elim
      (fun hbefore => ?_) .inr
    rcases List.mem_cons.1 hbefore with rfl | hbefore
    · exact .inr hpath
    · exact .inl hbefore

/-- The files of an expanded text are those to which its directives lead. -/
theorem mem_iff_leads (h : Includes find paths [] after forest) (path : String) :
    path ∈ after ↔ Leads find paths path := by
  constructor
  · intro hmem
    exact (h.leads_of_mem (fun _ => .direct) path hmem).resolve_left List.not_mem_nil
  · intro hleads
    induction hleads with
    | direct hmem => exact h.paths_subset hmem
    | inside _ hfind hmem ih =>
      obtain ⟨content, hfind', hsubset⟩ := h.closed _ ih List.not_mem_nil
      cases hfind.symm.trans hfind'
      exact hsubset hmem

/-- The paths of the blocks of a text are those that have been included. -/
theorem placements_perm (h : Includes find paths [] after forest) (offset : ℕ) :
    ((forest.placements offset).map Placement.file).Perm after := by
  rw [h.included_eq offset, List.append_nil]
  exact (List.reverse_perm _).symm

theorem nodup_placements (h : Includes find paths [] after forest) (offset : ℕ) :
    ((forest.placements offset).map Placement.file).Nodup :=
  (h.placements_perm offset).nodup_iff.2 (h.nodup List.nodup_nil)

theorem mem_placements_iff_leads (h : Includes find paths [] after forest) (offset : ℕ)
    (path : String) :
    path ∈ (forest.placements offset).map Placement.file ↔ Leads find paths path :=
  (h.placements_perm offset).mem_iff.trans (h.mem_iff_leads path)

end Includes

/-! ### Paths that have not been included -/

/-- The number of paths that have not been included. -/
def unseen (known : Finset String) (seen : List String) : ℕ :=
  (known \ seen.toFinset).card

section

variable {known : Finset String} {seen seen' : List String} {path : String} {depth : ℕ}

theorem unseen_anti (h : seen ⊆ seen') : unseen known seen' ≤ unseen known seen := by
  refine Finset.card_le_card (Finset.sdiff_subset_sdiff (Finset.Subset.refl _) ?_)
  exact fun _ hmem => List.mem_toFinset.2 (h (List.mem_toFinset.1 hmem))

theorem unseen_cons_lt (hpath : path ∈ known) (hnew : path ∉ seen) :
    unseen known (path :: seen) < unseen known seen := by
  refine Finset.card_lt_card (Finset.ssubset_iff_of_subset ?_ |>.2 ⟨path, ?_, ?_⟩)
  · exact Finset.sdiff_subset_sdiff (Finset.Subset.refl _) (by simp)
  · simp [hpath, hnew]
  · simp

/-- A bound that is large enough still is one level deeper, where one more path has been
included. -/
theorem exists_depth (hpath : path ∈ known) (hnew : path ∉ seen)
    (hbound : unseen known seen ≤ depth) :
    ∃ inner, depth = inner + 1 ∧ unseen known (path :: seen) ≤ inner := by
  have hlt := unseen_cons_lt hpath hnew
  exact ⟨depth - 1, by omega, by omega⟩

end

/-! ### The bound on the depth -/

section

variable {α β : Type} {s s' : List String}
variable {x : Expansion Id α} {f : α → Expansion Id β}

theorem bind_of_ok {a : α} (hx : x s = (.ok a, s')) : (x >>= f) s = f a s' := by
  change ExceptT.bindCont f (x s).1 (x s).2 = _
  rw [hx]
  rfl

theorem bind_of_error {e : IncludeError} (hx : x s = (.error e, s')) :
    (x >>= f) s = (.error e, s') := by
  change ExceptT.bindCont f (x s).1 (x s).2 = _
  rw [hx]
  rfl

theorem bind_eq_error {e : IncludeError} : (x >>= f) s = (.error e, s') ↔
      x s = (.error e, s') ∨ ∃ a s₁, x s = (.ok a, s₁) ∧ f a s₁ = (.error e, s') := by
  rcases hx : x s with ⟨e' | a, s₁⟩
  · rw [bind_of_error hx]
    constructor
    · intro h
      cases h
      exact .inl rfl
    · rintro (heq | ⟨_, _, heq, -⟩)
      · cases heq
        rfl
      · cases heq
  · rw [bind_of_ok hx]
    refine ⟨fun h => .inr ⟨a, s₁, rfl, h⟩, ?_⟩
    rintro (heq | ⟨_, _, heq, h⟩)
    · cases heq
    · cases heq
      exact h

theorem bind_congr_apply {y : Expansion Id α} {g : α → Expansion Id β} (hxy : x s = y s)
    (hfg : ∀ a s', x s = (.ok a, s') → f a s' = g a s') : (x >>= f) s = (y >>= g) s := by
  rcases hx : x s with ⟨e | a, s₁⟩
  · rw [bind_of_error hx, bind_of_error (hxy.symm.trans hx)]
  · rw [bind_of_ok hx, bind_of_ok (hxy.symm.trans hx), hfg a s₁ hx]

end

/-- The expansion of a file inside a text that is expanded to the given depth. -/
def nestedAt (find : String → Id (Except IncludeError String)) :
    (depth : ℕ) → (path text : String) → Expansion Id String
  | 0, path, _ => throw (.tooDeep path)
  | depth + 1, _, text => expandWithin find depth text

theorem expandWithin_eq (find : String → Id (Except IncludeError String)) (depth : ℕ)
    (text : String) : expandWithin find depth text = (do
      return (split text).1 ++ (← blocks find (nestedAt find depth) (split text).2)) := by
  cases depth <;> rfl

section

variable {find : String → Id (Except IncludeError String)} {P : String → Prop}
  {paths s s' : List String}
variable {depth : ℕ} {text : String} {e : IncludeError}

theorem subset_of_expandWithin {content : String}
    (h : expandWithin find depth content s = (.ok text, s')) : s ⊆ s' := by
  obtain ⟨forest, hforest, -⟩ := expandWithin_eq_ok h
  exact hforest.subset

theorem subset_of_nestedAt {path content : String}
    (h : nestedAt find depth path content s = (.ok text, s')) : s ⊆ s' := by
  cases depth with
  | zero => cases h
  | succ depth => exact subset_of_expandWithin h

section

variable {nested : (path text : String) → Expansion Id String} {path content : String}

theorem blocks_cons_of_error (hfind : find path = .error e) :
    blocks find nested (path :: paths) s = (.error e, s) := by
  rw [blocks]
  exact bind_of_error (congrArg (·, s) hfind)

theorem blocks_cons_of_mem (hfind : find path = .ok content) (hseen : path ∈ s) :
    blocks find nested (path :: paths) s = blocks find nested paths s := by
  rw [blocks]
  refine (bind_of_ok (congrArg (·, s) hfind)).trans ?_
  exact congrFun (if_pos hseen) s

theorem blocks_cons_of_notMem (hfind : find path = .ok content) (hnew : path ∉ s) :
    blocks find nested (path :: paths) s = (nested path content >>= fun inner => do
      return block path inner ++ (← blocks find nested paths)) (path :: s) := by
  rw [blocks]
  refine (bind_of_ok (congrArg (·, s) hfind)).trans ?_
  exact congrFun (if_neg hnew) s

end

/-- Two ways to expand files inside a text do not differ if they agree where a path is included that
has not been included before. -/
theorem blocks_congr {nested nested' : (path text : String) → Expansion Id String}
    (hgrows : ∀ {path content s text s'}, nested path content s = (.ok text, s') → s ⊆ s')
    (hagree : ∀ path content s', P path → path ∉ s' → s ⊆ s' → find path = .ok content →
      nested path content (path :: s') = nested' path content (path :: s'))
    (hpaths : ∀ path ∈ paths, P path) :
    blocks find nested paths s = blocks find nested' paths s := by
  induction paths generalizing s with
  | nil => rfl
  | cons path paths ih =>
    obtain ⟨hpath, hpaths⟩ := List.forall_mem_cons.1 hpaths
    cases hfind : find path with
    | error e => rw [blocks_cons_of_error hfind, blocks_cons_of_error hfind]
    | ok content =>
      by_cases hseen : path ∈ s
      · rw [blocks_cons_of_mem hfind hseen, blocks_cons_of_mem hfind hseen]
        exact ih hagree hpaths
      · rw [blocks_cons_of_notMem hfind hseen, blocks_cons_of_notMem hfind hseen]
        have hsame := hagree path content s hpath hseen (List.Subset.refl _) hfind
        refine bind_congr_apply hsame fun inner s₁ hinner => ?_
        have hsubset : s ⊆ s₁ := List.subset_of_cons_subset (hgrows hinner)
        refine bind_congr_apply (ih ?_ hpaths) fun _ _ _ => rfl
        exact fun path' content' s' hpath' hnew hs₁ =>
          hagree path' content' s' hpath' hnew (List.Subset.trans hsubset hs₁)

/-- The blocks of paths fail because of a path that cannot be read, if files inside a text do. -/
theorem leads_of_blocks_eq_error {nested : (path text : String) → Expansion Id String}
    (hgrows : ∀ {path content s text s'}, nested path content s = (.ok text, s') → s ⊆ s')
    (hnested : ∀ {path content s₁ s₂}, P path → path ∉ s₁ → s ⊆ s₁ → find path = .ok content →
      nested path content (path :: s₁) = (.error e, s₂) → ∃ path, P path ∧ find path = .error e)
    (hpaths : ∀ path ∈ paths, P path) (h : blocks find nested paths s = (.error e, s')) :
    ∃ path, P path ∧ find path = .error e := by
  induction paths generalizing s with
  | nil => cases h
  | cons path paths ih =>
    obtain ⟨hpath, hpaths⟩ := List.forall_mem_cons.1 hpaths
    cases hfind : find path with
    | error e' =>
      rw [blocks_cons_of_error hfind] at h
      cases h
      exact ⟨path, hpath, hfind⟩
    | ok content =>
      by_cases hseen : path ∈ s
      · rw [blocks_cons_of_mem hfind hseen] at h
        exact ih hnested hpaths h
      · rw [blocks_cons_of_notMem hfind hseen, bind_eq_error] at h
        rcases h with hinner | ⟨inner, s₁, hinner, hrest⟩
        · exact hnested hpath hseen (List.Subset.refl _) hfind hinner
        · have hsubset : s ⊆ s₁ := List.subset_of_cons_subset (hgrows hinner)
          rcases bind_eq_error.1 hrest with hrest | ⟨_, _, -, hpure⟩
          · refine ih (fun hpath' hnew hs₁ => ?_) hpaths hrest
            exact hnested hpath' hnew (List.Subset.trans hsubset hs₁)
          · cases hpure

variable {known : Finset String} (hknown : ∀ path, P path → path ∈ known)
  (hinside : ∀ path content, P path → find path = .ok content → ∀ other ∈ (split content).2,
    P other)
include hknown hinside

/-- A bound that is large enough does not matter. -/
theorem expandWithin_congr {depth' : ℕ} (htext : ∀ path ∈ (split text).2, P path)
    (hdepth : unseen known s ≤ depth) (hdepth' : unseen known s ≤ depth') :
    expandWithin find depth text s = expandWithin find depth' text s := by
  induction depth using Nat.strong_induction_on generalizing depth' text s with
  | _ depth ih =>
    rw [expandWithin_eq, expandWithin_eq]
    refine bind_congr_apply (blocks_congr subset_of_nestedAt ?_ htext) fun _ _ _ => rfl
    intro path content s₁ hpath hnew hs₁ hfind
    obtain ⟨inner, rfl, hinner⟩ :=
      exists_depth (hknown path hpath) hnew ((unseen_anti hs₁).trans hdepth)
    obtain ⟨inner', rfl, hinner'⟩ :=
      exists_depth (hknown path hpath) hnew ((unseen_anti hs₁).trans hdepth')
    exact ih inner inner.lt_succ_self (hinside path content hpath hfind) hinner hinner'

/-- An expansion whose bound is large enough fails because of a path that cannot be read. -/
theorem leads_of_expandWithin_eq_error (htext : ∀ path ∈ (split text).2, P path)
    (hdepth : unseen known s ≤ depth) (h : expandWithin find depth text s = (.error e, s')) :
    ∃ path, P path ∧ find path = .error e := by
  induction depth using Nat.strong_induction_on generalizing text s s' with
  | _ depth ih =>
    rw [expandWithin_eq, bind_eq_error] at h
    rcases h with hblocks | ⟨_, _, -, hpure⟩
    · refine leads_of_blocks_eq_error subset_of_nestedAt ?_ htext hblocks
      intro path content s₁ s₂ hpath hnew hs₁ hfind hnested
      obtain ⟨inner, rfl, hinner⟩ :=
        exists_depth (hknown path hpath) hnew ((unseen_anti hs₁).trans hdepth)
      exact ih inner inner.lt_succ_self (hinside path content hpath hfind) hinner hnested
    · cases hpure

end

end Include

open Include

namespace Files

variable {files : Files} {directories : List String} {text path content : String}

theorem mem_contents_of_at? {l : Location} {bytes : List UInt8}
    (h : files.at? l = some (.file bytes)) : (l, bytes) ∈ files.contents := by
  have hlookup : files.entries.lookup l = some (.file bytes) := by
    unfold at? at h
    by_cases hbase : l.isBase = true
    · rw [if_pos hbase] at h
      cases h
    · rw [if_neg hbase] at h
      cases hentry : files.entries.lookup l with
      | some entry =>
        rw [hentry] at h
        exact h
      | none =>
        rw [hentry] at h
        dsimp only at h
        split_ifs at h
        cases h
  obtain ⟨before, behind, hentries, -⟩ := List.lookup_eq_some_iff.1 hlookup
  rw [contents, List.mem_filterMap]
  exact ⟨(l, .file bytes), by simp [hentries], rfl⟩

/-- What is read under a path is the content of one of the files. -/
theorem mem_contents_of_read {bytes : List UInt8} (h : files.read path = .ok bytes) :
    ∃ l, (l, bytes) ∈ files.contents := by
  unfold read at h
  obtain ⟨_, -, h⟩ := Fallible.except_bind_eq_ok.1 h
  obtain ⟨l, -, h⟩ := Fallible.except_bind_eq_ok.1 h
  cases hat : files.at? l with
  | none =>
    rw [hat] at h
    cases h
  | some entry =>
    rw [hat] at h
    cases entry with
    | directory => cases h
    | file content =>
      cases h
      exact ⟨l, mem_contents_of_at? hat⟩

/-- The contents of files that are texts. -/
def texts (files : Files) : List String :=
  files.contents.filterMap fun (_, content) => (decodeText content).toOption

theorem mem_texts_of_readText (h : files.readText path = .ok content) : content ∈ files.texts := by
  obtain ⟨bytes, hread, hdecode⟩ := Fallible.except_bind_eq_ok.1 h
  obtain ⟨l, hmem⟩ := mem_contents_of_read hread
  exact List.mem_filterMap.2 ⟨(l, bytes), hmem, Fallible.toOption_eq_some.2 hdecode⟩

/-- A search that succeeds has read one of the candidates. -/
theorem exists_of_search {candidates : List String}
    (h : search (m := Id) (fun candidate => files.readText candidate) path candidates =
      .ok content) :
    ∃ candidate, files.readText candidate = .ok content := by
  induction candidates with
  | nil => cases h
  | cons candidate candidates ih =>
    rw [search] at h
    cases hread : files.readText candidate with
    | ok text =>
      rw [hread] at h
      cases h
      exact ⟨candidate, hread⟩
    | error e =>
      rw [hread] at h
      cases e with
      | notFound => exact ih h
      | _ => cases h

theorem search_ne_tooDeep {candidates : List String} {other : String} :
    search (m := Id) (fun candidate => files.readText candidate) path candidates ≠
    .error (.tooDeep other) := by
  induction candidates with
  | nil =>
    intro h
    cases h
  | cons candidate candidates ih =>
    intro h
    rw [search] at h
    cases hread : files.readText candidate with
    | ok text =>
      rw [hread] at h
      cases h
    | error e =>
      rw [hread] at h
      cases e with
      | notFound => exact ih h
      | _ => cases h

/-- The paths of all directives in a text and in files. -/
def includePaths (files : Files) (text : String) : List String :=
  (text :: files.texts).flatMap fun t => (split t).2

theorem length_includePaths (files : Files) (text : String) :
    (files.includePaths text).length = files.includeDepth text := by
  have hfoldr : ∀ ts : List String, (ts.flatMap fun t => (split t).2).length =
      ts.foldr (fun t depth => (split t).2.length + depth) 0 := by
    intro ts
    induction ts with
    | nil => rfl
    | cons t ts ih => rw [List.flatMap_cons, List.length_append, ih, List.foldr_cons]
  exact hfoldr _

/-- Directives lead only to paths that stand in a directive. -/
theorem mem_includePaths_of_leads (h : Leads (files.locate directories) (split text).2 path) :
    path ∈ files.includePaths text := by
  cases h with
  | direct hmem => exact List.mem_flatMap.2 ⟨text, List.mem_cons_self .., hmem⟩
  | inside _ hfind hmem =>
    obtain ⟨candidate, hread⟩ := exists_of_search hfind
    exact List.mem_flatMap.2 ⟨_, List.mem_cons_of_mem _ (mem_texts_of_readText hread), hmem⟩

theorem unseen_includePaths_le (files : Files) (text : String) :
    unseen (files.includePaths text).toFinset [] ≤ files.includeDepth text := by
  rw [unseen, List.toFinset_nil, Finset.sdiff_empty, ← length_includePaths]
  exact List.toFinset_card_le _

/-- The expansion of a text ends, whatever files include one another: its bound on the depth is
never reached, and a larger one changes nothing. It fails because of a path to which directives lead
and which cannot be read, and it succeeds if there is none. Then the text stands in front, without
its directives, and behind it stands one block for each path to which directives lead, with the text
of the file without its directives, and nothing else. -/
theorem expand_complete (files : Files) (directories : List String) (text : String) :
    (∀ path, (files.expand directories [] text).1 ≠ .error (.tooDeep path)) ∧
    (∀ depth, files.includeDepth text ≤ depth →
      expandWithin (m := Id) (files.locate directories) depth text [] =
      files.expand directories [] text) ∧
    (∀ e, (files.expand directories [] text).1 = .error e →
      ∃ path, Leads (files.locate directories) (split text).2 path ∧
        files.locate directories path = .error e) ∧
    ((∃ expanded, (files.expand directories [] text).1 = .ok expanded) ↔
      ∀ path, Leads (files.locate directories) (split text).2 path →
        ∃ content, files.locate directories path = .ok content) ∧
    ∀ expanded included, files.expand directories [] text = (.ok expanded, included) →
      ∃ forest : Forest, expanded = (split text).1 ++ forest.render ∧
        ((forest.placements (size (split text).1)).map Placement.file).Nodup ∧
        (∀ path, path ∈ (forest.placements (size (split text).1)).map Placement.file ↔
          Leads (files.locate directories) (split text).2 path) ∧
        ∀ q ∈ forest.placements (size (split text).1),
          ∃ content, files.locate directories q.file = .ok content ∧
            q.text = (split content).1 := by
  have hbound := files.unseen_includePaths_le text
  have hknown : ∀ path, Leads (files.locate directories) (split text).2 path →
      path ∈ (files.includePaths text).toFinset := fun path h =>
    List.mem_toFinset.2 (mem_includePaths_of_leads h)
  have hinside : ∀ path content, Leads (files.locate directories) (split text).2 path →
      files.locate directories path = .ok content → ∀ other ∈ (split content).2,
      Leads (files.locate directories) (split text).2 other := fun _ _ hpath hfind _ hmem =>
    .inside hpath hfind hmem
  have herror : ∀ e, (files.expand directories [] text).1 = .error e →
      ∃ path, Leads (files.locate directories) (split text).2 path ∧
      files.locate directories path = .error e :=
    fun e h => leads_of_expandWithin_eq_error hknown hinside (fun _ => .direct) hbound
      (Prod.ext h rfl)
  refine ⟨?_, ?_, herror, ⟨?_, ?_⟩, ?_⟩
  · intro path h
    obtain ⟨other, -, hfind⟩ := herror _ h
    exact search_ne_tooDeep hfind
  · intro depth hdepth
    exact expandWithin_congr hknown hinside (fun _ => .direct) (hbound.trans hdepth) hbound
  · rintro ⟨expanded, h⟩ path hpath
    obtain ⟨forest, hforest, -⟩ := expand_eq_ok (Prod.ext h rfl)
    obtain ⟨content, hfind, -⟩ :=
      hforest.closed path ((hforest.mem_iff_leads path).2 hpath) List.not_mem_nil
    exact ⟨content, hfind⟩
  · intro hfound
    cases hresult : (files.expand directories [] text).1 with
    | ok expanded => exact ⟨expanded, rfl⟩
    | error e =>
      obtain ⟨path, hpath, hfind⟩ := herror e hresult
      obtain ⟨content, hcontent⟩ := hfound path hpath
      cases hfind.symm.trans hcontent
  · intro expanded included h
    obtain ⟨forest, hforest, rfl⟩ := expand_eq_ok h
    exact ⟨forest, rfl, hforest.nodup_placements _, hforest.mem_placements_iff_leads _,
      hforest.text_eq _⟩

/-- A file that includes itself and another one, which includes it in turn. -/
def circularLibrary : Files :=
  ((default : Files).place "a.fl" (.file (encodeText "$include <a.fl>$include <b.fl>one"))).place
    "lib/b.fl" (.file (encodeText "two$include <a.fl>"))

/-- Files that include one another in a circle have a block each, and a bound that is never reached
does not matter. -/
theorem expand_complete_circularLibrary :
    circularLibrary.includeDepth "$include <a.fl>main" ≤ 1000 ∧
    circularLibrary.expand ["lib"] [] "$include <a.fl>main" =
      (.ok "main\n//@file a.fl\none\n//@file b.fl\ntwo\n//@endfile\n\n//@endfile\n",
        ["b.fl", "a.fl"]) ∧
    expandWithin (m := Id) (circularLibrary.locate ["lib"]) 1000 "$include <a.fl>main" [] =
      circularLibrary.expand ["lib"] [] "$include <a.fl>main" ∧
    ∃ forest : Forest, "main\n//@file a.fl\none\n//@file b.fl\ntwo\n//@endfile\n\n//@endfile\n" =
      (split "$include <a.fl>main").1 ++ forest.render ∧
      ∀ path, path ∈ (forest.placements (size (split "$include <a.fl>main").1)).map Placement.file ↔
        Leads (circularLibrary.locate ["lib"]) (split "$include <a.fl>main").2 path := by
  have hdepth : circularLibrary.includeDepth "$include <a.fl>main" ≤ 1000 := by decide +kernel
  have hexpand : circularLibrary.expand ["lib"] [] "$include <a.fl>main" =
      (.ok "main\n//@file a.fl\none\n//@file b.fl\ntwo\n//@endfile\n\n//@endfile\n",
        ["b.fl", "a.fl"]) := by
    decide +kernel
  obtain ⟨-, hlarger, -, -, hsuccess⟩ :=
    expand_complete circularLibrary ["lib"] "$include <a.fl>main"
  obtain ⟨forest, htext, -, hpaths, -⟩ := hsuccess _ _ hexpand
  exact ⟨hdepth, hexpand, hlarger 1000 hdepth, forest, htext, hpaths⟩

end Files

end Firestorm
