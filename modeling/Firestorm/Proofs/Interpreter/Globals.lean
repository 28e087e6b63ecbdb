import Firestorm.Bytecode.Emit
import Firestorm.Interpreter
import Firestorm.Proofs.Fallible
import Firestorm.Proofs.Heap.Operations

/-!
# Initial values of globals

The interpreter gives the globals their initial values in the order of their definitions, and a
later definition of a name replaces the value of an earlier one. Where all definitions of a name
have the same initial value, later ones change nothing: a string that is kept stays where it is.

## Main definitions

* `Interpreter.Settled`.

## Main results

* `Interpreter.defineGlobal_eq_ok`, `Interpreter.start_induction`,
  `Interpreter.foldlM_firstDefinitions`.
-/

namespace Firestorm

open Fallible

variable {value : Word}

/-! ### Constants -/

namespace Heap

variable {h h' : Heap} {pointer : Word} {text : String}

theorem strings_allocate {length : Word} (hallocate : h.allocate length = .ok (pointer, h')) :
    h'.strings = h.strings := by
  obtain ⟨-, start, -, -, rfl⟩ := allocate_eq_ok.1 hallocate
  rfl

/-- The strings that are kept once one more is asked for. -/
theorem strings_intern (hintern : h.intern text = .ok (pointer, h')) :
    h.strings.lookup text = some pointer ∧ h' = h ∨
      h.strings.lookup text = none ∧ h'.strings = (text, pointer) :: h.strings := by
  rcases intern_eq_ok.1 hintern with hkept | ⟨hnone, h₁, hallocate, rfl⟩
  · exact .inl hkept
  · exact .inr ⟨hnone, congrArg ((text, pointer) :: ·) (strings_allocate hallocate)⟩

/-- A string that is kept stays where it is. -/
theorem intern_of_lookup (hlookup : h.strings.lookup text = some pointer) :
    h.intern text = .ok (pointer, h) := by
  rw [intern, hlookup]

theorem lookup_of_intern_self (hintern : h.intern text = .ok (pointer, h)) :
    h.strings.lookup text = some pointer := by
  rcases strings_intern hintern with ⟨hlookup, -⟩ | ⟨-, hstrings⟩
  · exact hlookup
  · exact absurd (congrArg List.length hstrings) (by simp)

theorem lookup_of_intern (hintern : h.intern text = .ok (pointer, h')) :
    h'.strings.lookup text = some pointer := by
  rcases strings_intern hintern with ⟨hlookup, rfl⟩ | ⟨-, hstrings⟩
  · exact hlookup
  · simp [hstrings]

theorem lookup_intern {other : String} {kept : Word} (hintern : h.intern text = .ok (pointer, h'))
    (hother : h.strings.lookup other = some kept) : h'.strings.lookup other = some kept := by
  rcases strings_intern hintern with ⟨-, rfl⟩ | ⟨hnone, hstrings⟩
  · exact hother
  · have hne : other ≠ text := by
      rintro rfl
      rw [hnone] at hother
      cases hother
    rw [hstrings, List.lookup_cons, (beq_eq_false_iff_ne).2 hne]
    exact hother

/-- A constant has the same value again, and the heap stays as it is. -/
theorem literal_again {l : Literal} (hl : h.literal l = .ok (value, h')) :
    h'.literal l = .ok (value, h') := by
  cases l with
  | number _ | chr _ =>
    cases hl
    rfl
  | str content => exact intern_of_lookup (lookup_of_intern hl)

/-- A constant that changes nothing does so behind every other constant. -/
theorem literal_of_literal {l l' : Literal} {value' : Word} (hl : h.literal l = .ok (value, h))
    (hl' : h.literal l' = .ok (value', h')) : h'.literal l = .ok (value, h') := by
  cases l with
  | number _ | chr _ =>
    cases hl
    rfl
  | str content =>
    cases l' with
    | number _ | chr _ =>
      cases hl'
      exact hl
    | str other => exact intern_of_lookup (lookup_intern hl' (lookup_of_intern_self hl))

end Heap

/-! ### Definitions -/

theorem Table.set_eq_self {α : Type} {t : Table α} {name : String} {value : α}
    (h : t.get? name = some value) : t.set name value = t := by
  obtain ⟨entries⟩ := t
  refine congrArg Table.mk ?_
  change entries.lookup name = some value at h
  induction entries with
  | nil => cases h
  | cons entry rest ih =>
    obtain ⟨key, old⟩ := entry
    by_cases hname : name = key
    · subst hname
      simp_all [Table.update]
    · have hb : (name == key) = false := by simpa using hname
      rw [List.lookup_cons, hb] at h
      simp [Table.update, hname, ih h]

namespace Interpreter

variable {m m' : Machine} {g g' : GlobalDef}
variable {heap : Heap} {gs : List GlobalDef}

theorem initialValue_again {heap' : Heap} (h : initialValue heap g = .ok (value, heap')) :
    initialValue heap' g = .ok (value, heap') := by
  unfold initialValue at h ⊢
  cases hinit : g.init with
  | none =>
    rw [hinit] at h
    cases h
    rfl
  | some l =>
    rw [hinit] at h
    exact mapError_eq_ok.2 (Heap.literal_again (mapError_eq_ok.1 h))

theorem initialValue_of_initialValue {heap' : Heap} {value' : Word}
    (h : initialValue heap g = .ok (value, heap))
    (h' : initialValue heap g' = .ok (value', heap')) :
    initialValue heap' g = .ok (value, heap') := by
  unfold initialValue at h h' ⊢
  cases hinit : g.init with
  | none =>
    rw [hinit] at h
    cases h
    rfl
  | some l =>
    rw [hinit] at h
    cases hinit' : g'.init with
    | none =>
      rw [hinit'] at h'
      cases h'
      exact h
    | some l' =>
      rw [hinit'] at h'
      exact mapError_eq_ok.2 (Heap.literal_of_literal (mapError_eq_ok.1 h) (mapError_eq_ok.1 h'))

/-- What a definition does. -/
theorem defineGlobal_eq_ok : defineGlobal m g = .ok m' ↔ g.check = .ok () ∧
    ∃ value heap, initialValue m.heap g = .ok (value, heap) ∧
      (∀ v, m.globals.get? g.binding.name = some v → v.datatype = g.binding.datatype) ∧
      m' = { m with
        heap := heap
        globals := m.globals.set g.binding.name (.holding g.binding.datatype value) } := by
  have hredefined : (m.globals.get? g.binding.name).any (fun v => v.datatype ≠ g.binding.datatype) =
      true ↔ ¬ ∀ v, m.globals.get? g.binding.name = some v → v.datatype = g.binding.datatype := by
    simp [Option.any_eq_true]
  unfold defineGlobal
  simp only [except_bind_eq_ok, mapError_eq_ok, hredefined]
  constructor
  · rintro ⟨_, hcheck, ⟨value, heap⟩, hvalue, hrest⟩
    split at hrest
    · cases hrest
    · next hdatatype =>
      cases hrest
      exact ⟨hcheck, value, heap, hvalue, not_not.1 hdatatype, rfl⟩
  · rintro ⟨hcheck, value, heap, hvalue, hdatatype, rfl⟩
    refine ⟨(), hcheck, (value, heap), hvalue, ?_⟩
    rw [if_neg (not_not.2 hdatatype)]
    rfl

/-- What every definition keeps is true of the state in which a program is ready to run. -/
theorem start_induction {P : Machine → Prop} {p : Program} {output : Output} {i : Interpreter}
    (h : start p heap output = .ok i) (hfirst : P { heap := heap, output := output })
    (hdefine : ∀ m g m', Interpreter.defineGlobal m g = .ok m' → P m → P m') : P i.machine := by
  have hfold : ∀ (gs : List GlobalDef) (m m' : Machine),
      gs.foldlM Interpreter.defineGlobal m = .ok m' → P m → P m' := by
    intro gs
    induction gs with
    | nil =>
      intro m m' h hm
      cases h
      exact hm
    | cons g gs ih =>
      intro m m' h hm
      rw [List.foldlM_cons, except_bind_eq_ok] at h
      obtain ⟨m₁, hg, h⟩ := h
      exact ih m₁ m' h (hdefine m g m₁ hg hm)
  simp only [start, except_bind_eq_ok] at h
  obtain ⟨functions, -, m, hm, hi⟩ := h
  cases hi
  exact hfold _ _ _ hm hfirst

/-- A global that has been defined stays defined. -/
theorem isSome_of_foldlM {name : String} (h : gs.foldlM Interpreter.defineGlobal m = .ok m')
    (hname : (m.globals.get? name).isSome ∨ name ∈ gs.map (·.binding.name)) :
    (m'.globals.get? name).isSome := by
  induction gs generalizing m with
  | nil =>
    cases h
    simpa using hname
  | cons g gs ih =>
    rw [List.foldlM_cons, except_bind_eq_ok] at h
    obtain ⟨m₁, hg, h⟩ := h
    obtain ⟨-, value, heap, -, -, rfl⟩ := defineGlobal_eq_ok.1 hg
    refine ih h ?_
    rw [Table.get?_set]
    split
    · exact .inl rfl
    · next hne => simpa [hne] using hname

/-- One more definition would change nothing. -/
def Settled (m : Machine) (g : GlobalDef) : Prop :=
  ∃ value, initialValue m.heap g = .ok (value, m.heap) ∧
    m.globals.get? g.binding.name = some (.holding g.binding.datatype value)

theorem settled_of_defineGlobal (h : defineGlobal m g = .ok m') : Settled m' g := by
  obtain ⟨-, value, heap, hvalue, -, rfl⟩ := defineGlobal_eq_ok.1 h
  exact ⟨value, initialValue_again hvalue, Table.get?_set_self ..⟩

theorem Settled.defineGlobal (hsettled : Settled m g) (h : defineGlobal m g' = .ok m')
    (hsame : g.binding.name = g'.binding.name → g.init = g'.init) : Settled m' g := by
  obtain ⟨value, hvalue, hget⟩ := hsettled
  obtain ⟨-, value', heap, hvalue', hdatatype, rfl⟩ := defineGlobal_eq_ok.1 h
  refine ⟨value, initialValue_of_initialValue hvalue hvalue', ?_⟩
  rw [Table.get?_set]
  split
  · next hname =>
    have hinit : initialValue m.heap g = initialValue m.heap g' := by
      rw [initialValue, hsame hname, initialValue]
    rw [hname] at hget
    rw [hinit, hvalue'] at hvalue
    cases hvalue
    have hd : g.binding.datatype = g'.binding.datatype := hdatatype _ hget
    rw [hd]
  · exact hget

theorem Settled.eq_of_defineGlobal (hsettled : Settled m g)
    (h : Interpreter.defineGlobal m g = .ok m') : m' = m := by
  obtain ⟨value, hvalue, hget⟩ := hsettled
  obtain ⟨-, value', heap, hvalue', -, rfl⟩ := defineGlobal_eq_ok.1 h
  rw [hvalue] at hvalue'
  cases hvalue'
  rw [Table.set_eq_self hget]

theorem Settled.foldlM (hsettled : Settled m g) (h : gs.foldlM Interpreter.defineGlobal m = .ok m')
    (hsame : ∀ g' ∈ gs, g.binding.name = g'.binding.name → g.init = g'.init) : Settled m' g := by
  induction gs generalizing m with
  | nil =>
    cases h
    exact hsettled
  | cons g' gs ih =>
    obtain ⟨hg', hgs⟩ := List.forall_mem_cons.1 hsame
    rw [List.foldlM_cons, except_bind_eq_ok] at h
    obtain ⟨m₁, hdefine, h⟩ := h
    exact ih (hsettled.defineGlobal hdefine hg') h hgs

/-- Where definitions of one name have one initial value, every global has it. -/
theorem settled_of_foldlM
    (hsame : ∀ g ∈ gs, ∀ g' ∈ gs, g.binding.name = g'.binding.name → g.init = g'.init)
    (h : gs.foldlM Interpreter.defineGlobal m = .ok m') (hg : g ∈ gs) : Settled m' g := by
  obtain ⟨first, last, rfl⟩ := List.append_of_mem hg
  rw [List.foldlM_append, except_bind_eq_ok] at h
  obtain ⟨m₁, -, h⟩ := h
  rw [List.foldlM_cons, except_bind_eq_ok] at h
  obtain ⟨m₂, hdefine, h⟩ := h
  refine (settled_of_defineGlobal hdefine).foldlM h fun g' hg' => hsame g hg g' ?_
  exact List.mem_append_right _ (List.mem_cons_of_mem _ hg')

/-- Where definitions of one name have one initial value, the first definition of each name is
enough. -/
theorem foldlM_firstDefinitions {all : List GlobalDef}
    (hsame : ∀ g ∈ all, ∀ g' ∈ all, g.binding.name = g'.binding.name → g.init = g'.init)
    (hgs : gs ⊆ all) (seen : List String)
    (hseen : ∀ name ∈ seen, ∃ g ∈ all, g.binding.name = name ∧ Settled m g)
    (h : gs.foldlM Interpreter.defineGlobal m = .ok m') :
    (Bytecode.firstDefinitions seen gs).foldlM Interpreter.defineGlobal m = .ok m' := by
  induction gs generalizing m seen with
  | nil => exact h
  | cons g gs ih =>
    obtain ⟨hg, hgs⟩ := List.cons_subset.1 hgs
    rw [List.foldlM_cons, except_bind_eq_ok] at h
    obtain ⟨m₁, hdefine, h⟩ := h
    unfold Bytecode.firstDefinitions
    split
    · next hmem =>
      obtain ⟨g₀, hg₀, hname, value, hvalue, hget⟩ := hseen _ hmem
      obtain ⟨-, value', heap, hvalue', hdatatype, -⟩ := defineGlobal_eq_ok.1 hdefine
      have hinit : initialValue m.heap g₀ = initialValue m.heap g := by
        rw [initialValue, hsame g₀ hg₀ g hg hname, initialValue]
      rw [hname] at hget
      have hd : g₀.binding.datatype = g.binding.datatype := hdatatype _ hget
      have hsettled : Settled m g := ⟨value, hinit ▸ hvalue, hd ▸ hget⟩
      obtain rfl := hsettled.eq_of_defineGlobal hdefine
      exact ih hgs _ hseen h
    · rw [List.foldlM_cons, except_bind_eq_ok]
      refine ⟨m₁, hdefine, ih hgs _ ?_ h⟩
      intro name hname
      rcases List.mem_cons.1 hname with rfl | hname
      · exact ⟨g, hg, rfl, settled_of_defineGlobal hdefine⟩
      · obtain ⟨g₀, hg₀, hname, hsettled⟩ := hseen name hname
        exact ⟨g₀, hg₀, hname, hsettled.defineGlobal hdefine (hsame g₀ hg₀ g hg)⟩

end Interpreter

end Firestorm
