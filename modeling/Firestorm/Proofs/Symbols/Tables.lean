import Mathlib.Data.List.Nodup
import Firestorm.Proofs.Fallible
import Firestorm.Symbols.Function
import Firestorm.Symbols.Global

/-!
# The tables of a program

The tables of functions and of globals are folds over definitions. This file says what a fold that
succeeds has looked up: the table of functions agrees with `Program.function?` and no name is
defined twice, and the table of globals gives each definition its datatype.

## Main results

* `FunctionTable.get?_of_ofProgram`, `FunctionTable.nodup_of_ofProgram`,
  `GlobalTable.get?_of_ofProgram`.
-/

namespace Firestorm

open Fallible

variable {name : String}

/-- A list of names with one that may be new at its end. -/
def insertName (names : List String) (name : String) : List String :=
  if name ∈ names then names else names ++ [name]

@[simp] theorem mem_insertName {names : List String} {other : String} :
    other ∈ insertName names name ↔ other ∈ names ∨ other = name := by
  unfold insertName
  split
  · next h =>
    constructor
    · exact .inl
    · rintro (h' | rfl)
      · exact h'
      · exact h
  · simp

theorem isPrefix_insertName (names : List String) (name : String) :
    names <+: insertName names name := by
  unfold insertName
  split
  · exact List.prefix_refl _
  · exact List.prefix_append _ _

namespace Table

variable {α : Type}

theorem get?_eq_none_iff {t : Table α} : t.get? name = none ↔ name ∉ t.names := by
  rw [get?, List.lookup_eq_none_iff, names]
  constructor
  · intro h hmem
    obtain ⟨entry, hentry, rfl⟩ := List.mem_map.1 hmem
    simpa using h entry hentry
  · intro h entry hentry
    simp only [bne_iff_ne, ne_eq]
    rintro rfl
    exact h (List.mem_map_of_mem hentry)

theorem isSome_get?_iff {t : Table α} : (t.get? name).isSome ↔ name ∈ t.names := by
  rw [← not_iff_not, Bool.not_eq_true, Option.isSome_eq_false_iff, Option.isNone_iff_eq_none,
    get?_eq_none_iff]

@[simp] theorem names_set (t : Table α) (name : String) (value : α) :
    (t.set name value).names = insertName t.names name := by
  obtain ⟨entries⟩ := t
  simp only [names, set]
  induction entries with
  | nil => rfl
  | cons entry rest ih =>
    by_cases h : name = entry.1
    · simp [update, insertName, h]
    · unfold insertName at ih ⊢
      simp only [update, beq_iff_eq, h, if_false, List.map_cons, ih, List.mem_cons, false_or]
      split <;> rfl

end Table

namespace FunctionTable

variable {t' : FunctionTable} {f : FunctionDef}

variable {t : FunctionTable}

theorem define_eq_ok : t.define f = .ok t' ↔ t.get? f.name = none ∧ t' = t.set f.name f := by
  unfold define
  cases t.get? f.name <;> simp [eq_comm]

theorem get?_of_foldlM {fs : List FunctionDef} (h : fs.foldlM define t = .ok t') (name : String) :
    t'.get? name = (t.get? name).or (fs.find? (·.name == name)) := by
  induction fs generalizing t with
  | nil =>
    cases h
    simp
  | cons f fs ih =>
    rw [List.foldlM_cons, except_bind_eq_ok] at h
    obtain ⟨t₁, hf, h⟩ := h
    obtain ⟨hnone, rfl⟩ := define_eq_ok.1 hf
    rw [ih h, Table.get?_set]
    by_cases hname : name = f.name
    · subst hname
      simp [hnone]
    · simp [hname, Ne.symm hname]

theorem nodup_of_foldlM {fs : List FunctionDef} (h : fs.foldlM define t = .ok t') :
    (fs.map (·.name)).Nodup ∧ ∀ f ∈ fs, t.get? f.name = none := by
  induction fs generalizing t with
  | nil => simp
  | cons f fs ih =>
    rw [List.foldlM_cons, except_bind_eq_ok] at h
    obtain ⟨t₁, hf, h⟩ := h
    obtain ⟨hnone, rfl⟩ := define_eq_ok.1 hf
    obtain ⟨hnodup, hfresh⟩ := ih h
    have hne : ∀ g ∈ fs, g.name ≠ f.name := fun g hg hname => by
      simpa [hname] using hfresh g hg
    refine ⟨List.nodup_cons.2 ⟨?_, hnodup⟩, ?_⟩
    · rintro hmem
      obtain ⟨g, hg, hname⟩ := List.mem_map.1 hmem
      exact hne g hg hname
    · rintro g hg
      rcases List.mem_cons.1 hg with rfl | hg
      · exact hnone
      · rw [← hfresh g hg, Table.get?_set_of_ne t (hne g hg)]

variable {p : Program} {t : FunctionTable}

/-- The table of a program finds the first function with a name. -/
theorem get?_of_ofProgram (h : ofProgram p = .ok t) (name : String) :
    t.get? name = p.function? name := by
  rw [get?_of_foldlM h name, Table.get?_empty, Option.none_or, Program.function?]

/-- In a program that has a table the names of functions are distinct. -/
theorem nodup_of_ofProgram (h : ofProgram p = .ok t) : (p.functions.map (·.name)).Nodup :=
  (nodup_of_foldlM h).1

theorem mem_of_get? (h : ofProgram p = .ok t) (hf : t.get? name = some f) :
    f ∈ p.functions ∧ f.name = name := by
  rw [get?_of_ofProgram h, Program.function?] at hf
  exact ⟨List.mem_of_find?_eq_some hf, by simpa using List.find?_some hf⟩

theorem get?_of_mem (h : ofProgram p = .ok t) (hf : f ∈ p.functions) : t.get? f.name = some f := by
  rw [get?_of_ofProgram h, Program.function?]
  obtain ⟨before, after, heq⟩ := List.append_of_mem hf
  have hnodup := nodup_of_ofProgram h
  rw [heq, List.map_append, List.map_cons, List.nodup_append] at hnodup
  rw [List.find?_eq_some_iff_append]
  refine ⟨by simp, before, after, heq, fun g hg => ?_⟩
  have hne := hnodup.2.2 g.name (List.mem_map_of_mem hg) f.name (List.mem_cons_self ..)
  simpa using hne

theorem resolve_eq_ok {callee : String} {n : Nat} :
    t.resolve callee n = .ok f ↔ t.get? callee = some f ∧ f.parameters.length = n := by
  unfold resolve
  cases hget : t.get? callee with
  | none => simp
  | some g =>
    by_cases hlen : g.parameters.length = n
    · simp only [hlen, if_true, Except.ok.injEq, Option.some.injEq]
      constructor
      · rintro rfl
        exact ⟨rfl, hlen⟩
      · rintro ⟨rfl, -⟩
        rfl
    · simp only [hlen, if_false, reduceCtorEq, Option.some.injEq, false_iff, not_and]
      rintro rfl
      exact hlen

end FunctionTable

namespace GlobalTable

theorem define_eq_ok {t t' : GlobalTable} {g : GlobalDef} (h : t.define g = .ok t') :
    t'.get? g.binding.name = some g.binding.datatype ∧
      (∀ name, name ≠ g.binding.name → t'.get? name = t.get? name) ∧
      (∀ d, t.get? g.binding.name = some d → d = g.binding.datatype) := by
  unfold define at h
  obtain ⟨-, -, h⟩ := except_bind_eq_ok.1 h
  cases hget : t.get? g.binding.name with
  | none =>
    simp only [hget] at h
    cases h
    exact ⟨by simp, fun name hname => Table.get?_set_of_ne t hname _, by simp⟩
  | some d =>
    simp only [hget] at h
    split at h
    · next hd =>
      cases h
      exact ⟨by rw [hget, hd], fun _ _ => rfl,
        fun d' hd' => by rw [← hd]; injection hd' with h; exact h.symm⟩
    · cases h

theorem get?_of_foldlM {gs : List GlobalDef} {t t' : GlobalTable}
    (h : gs.foldlM define t = .ok t') :
    (∀ g ∈ gs, t'.get? g.binding.name = some g.binding.datatype) ∧
      (∀ name d, t.get? name = some d → t'.get? name = some d) ∧
      ∀ name d, t'.get? name = some d → t.get? name = some d ∨ ∃ g ∈ gs, g.binding = ⟨name, d⟩ := by
  induction gs generalizing t with
  | nil =>
    cases h
    exact ⟨by simp, fun _ _ h => h, fun _ _ h => .inl h⟩
  | cons g gs ih =>
    rw [List.foldlM_cons, except_bind_eq_ok] at h
    obtain ⟨t₁, hg, h⟩ := h
    obtain ⟨hself, hother, hsame⟩ := define_eq_ok hg
    obtain ⟨hall, hkeep, hfrom⟩ := ih h
    refine ⟨?_, fun name d hd => hkeep name d ?_, fun name d hd => ?_⟩
    · rintro g' hg'
      rcases List.mem_cons.1 hg' with rfl | hg'
      · exact hkeep _ _ hself
      · exact hall g' hg'
    · by_cases hname : name = g.binding.name
      · subst hname
        rw [hself, hsame d hd]
      · rw [hother name hname, hd]
    · rcases hfrom name d hd with hd | ⟨g', hg', heq⟩
      · by_cases hname : name = g.binding.name
        · subst hname
          rw [hself] at hd
          injection hd with hd
          exact .inr ⟨g, List.mem_cons_self .., by rw [← hd]⟩
        · exact .inl (by rw [← hother name hname, hd])
      · exact .inr ⟨g', List.mem_cons_of_mem _ hg', heq⟩

variable {p : Program} {t : GlobalTable}

theorem get?_of_mem (h : ofProgram p = .ok t) {g : GlobalDef} (hg : g ∈ p.globals) :
    t.get? g.binding.name = some g.binding.datatype :=
  (get?_of_foldlM h).1 g hg

/-- The table of a program finds the datatype of a definition with a name. -/
theorem mem_of_get? (h : ofProgram p = .ok t) {d : Datatype} (hd : t.get? name = some d) :
    ∃ g ∈ p.globals, g.binding = ⟨name, d⟩ := by
  rcases (get?_of_foldlM h).2.2 name d hd with hd | hg
  · cases hd
  · exact hg

end GlobalTable

end Firestorm
