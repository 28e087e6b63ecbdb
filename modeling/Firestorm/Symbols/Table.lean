/-!
# Tables of named entries

A table maps names to values and keeps the names in the order in which they were first set.

## Main definitions

* `Table`, `Table.get?`, `Table.set`.

## Main results

* `Table.get?_set`.
-/

namespace Firestorm

/-- A map from names to values that keeps the order in which names were first set. -/
structure Table (α : Type) where
  entries : List (String × α) := []
deriving Repr, DecidableEq

namespace Table

variable {α : Type}

instance : EmptyCollection (Table α) := ⟨{}⟩

instance : Inhabited (Table α) := ⟨∅⟩

/-- The value of a name. -/
def get? (t : Table α) (name : String) : Option α :=
  t.entries.lookup name

/-- The names with an entry, in the order in which they were first set. -/
def names (t : Table α) : List String :=
  t.entries.map Prod.fst

/-- The entries after one has been replaced, or added at the end. -/
def update (name : String) (value : α) : List (String × α) → List (String × α)
  | [] => [(name, value)]
  | entry :: rest =>
    if name == entry.1 then (name, value) :: rest else entry :: update name value rest

/-- The table in which a name has the given value. -/
def set (t : Table α) (name : String) (value : α) : Table α :=
  ⟨update name value t.entries⟩

@[simp] theorem get?_empty (name : String) : (∅ : Table α).get? name = none := rfl

theorem lookup_update (name other : String) (value : α) (entries : List (String × α)) :
    (update name value entries).lookup other =
      if other = name then some value else entries.lookup other := by
  induction entries with
  | nil =>
    by_cases h : other = name
    · simp [update, h]
    · have hb : (other == name) = false := by simpa using h
      simp [update, List.lookup_cons, h, hb]
  | cons entry rest ih =>
    obtain ⟨key, old⟩ := entry
    by_cases hn : name = key
    · subst hn
      by_cases h : other = name
      · simp [update, h]
      · have hb : (other == name) = false := by simpa using h
        simp [update, List.lookup_cons, h, hb]
    · by_cases h : other = key
      · subst h
        simp [update, hn, Ne.symm hn]
      · have hb : (other == key) = false := by simpa using h
        simp [update, hn, List.lookup_cons, hb, ih]

/-- An update changes the entry of its name and no other. -/
@[simp] theorem get?_set (t : Table α) (name other : String) (value : α) :
    (t.set name value).get? other = if other = name then some value else t.get? other :=
  lookup_update name other value t.entries

theorem get?_set_self (t : Table α) (name : String) (value : α) :
    (t.set name value).get? name = some value := by
  simp

theorem get?_set_of_ne (t : Table α) {name other : String} (h : other ≠ name) (value : α) :
    (t.set name value).get? other = t.get? other := by
  simp [h]

theorem mem_names_of_get? {t : Table α} {name : String} {value : α} (h : t.get? name = some value) :
    name ∈ t.names := by
  obtain ⟨before, after, hentries, -⟩ := List.lookup_eq_some_iff.1 h
  simp [names, hentries]

end Table

end Firestorm
