import Firestorm.Interpreter

/-!
# Computations of the interpreter

How computations of the interpreter are put together, and when they have a value.

## Main results

* `Exec.bind_apply`, `Exec.bind_eq_ok`, `Exec.bind_cases`: one computation after another.
* `Exec.onHeap_eq_ok`, `Exec.onHeap_map_eq_ok`, `Exec.readCell_eq_ok`: operations on the heap.
-/

namespace Firestorm.Exec

variable {α β : Type} {m m' : Machine}

theorem bind_apply (x : Exec α) (f : α → Exec β) (m : Machine) :
    (x >>= f) m =
      match x m with
      | (.ok a, m') => f a m'
      | (.error e, m') => (.error e, m') := by
  change (ExceptT.bindCont f (x m).1 (x m).2) = _
  rcases x m with ⟨_ | _, _⟩ <;> rfl

theorem get_bind_apply (f : Machine → Exec β) (m : Machine) :
    ((get : Exec Machine) >>= f) m = f m m := rfl

/-- One computation after another has a value if each of them has. -/
theorem bind_eq_ok {x : Exec α} {f : α → Exec β} {b : β} :
    (x >>= f) m = (.ok b, m') ↔ ∃ a m₁, x m = (.ok a, m₁) ∧ f a m₁ = (.ok b, m') := by
  rw [bind_apply]
  rcases x m with ⟨e | a, m₁⟩
  · refine iff_of_false nofun ?_
    rintro ⟨_, _, heq, -⟩
    cases heq
  · constructor
    · exact fun h => ⟨a, m₁, rfl, h⟩
    · rintro ⟨_, _, heq, h⟩
      cases heq
      exact h

/-- One computation after another stops where the first one does, or goes on with its value. -/
theorem bind_cases {x : Exec α} {f : α → Exec β} {result : Except Halt β × Machine}
    (h : (x >>= f) m = result) : (∃ halt m₁, x m = (.error halt, m₁) ∧ result = (.error halt, m₁)) ∨
      ∃ a m₁, x m = (.ok a, m₁) ∧ f a m₁ = result := by
  subst h
  rw [bind_apply]
  rcases x m with ⟨halt | a, m₁⟩
  · exact .inl ⟨halt, m₁, rfl, rfl⟩
  · exact .inr ⟨a, m₁, rfl, rfl⟩

theorem pure_eq_ok {a b : α} : (pure a : Exec α) m = (.ok b, m') ↔ a = b ∧ m = m' := by
  change (Except.ok a, m) = (Except.ok b, m') ↔ _
  simp

theorem discard_bind (x : Exec α) (f : Unit → Exec β) : discard x >>= f = x >>= fun _ => f () := by
  simp [discard, map_const]

theorem onHeap_eq_ok {operation : Heap → Except HeapError (α × Heap)} {a : α} :
    onHeap operation m = (.ok a, m') ↔
      ∃ heap, operation m.heap = .ok (a, heap) ∧ m' = { m with heap := heap } := by
  unfold onHeap
  cases operation m.heap with
  | error e =>
    refine iff_of_false nofun ?_
    rintro ⟨_, heq, -⟩
    cases heq
  | ok result =>
    constructor
    · intro heq
      cases heq
      exact ⟨_, rfl, rfl⟩
    · rintro ⟨_, heq, rfl⟩
      cases heq
      rfl

/-- An operation on the heap that fails changes nothing. -/
theorem eq_of_onHeap_error {operation : Heap → Except HeapError (α × Heap)} {halt : Halt}
    (h : onHeap operation m = (.error halt, m')) : m' = m := by
  unfold onHeap at h
  cases hresult : operation m.heap with
  | ok result =>
    rw [hresult] at h
    cases h
  | error e =>
    rw [hresult] at h
    cases h
    rfl

theorem onHeap_map_eq_ok {operation : Heap → Except HeapError Heap} :
    onHeap (fun h => (operation h).map fun h => ((), h)) m = (.ok (), m') ↔
      ∃ heap, operation m.heap = .ok heap ∧ m' = { m with heap := heap } := by
  rw [onHeap_eq_ok]
  cases operation m.heap <;> simp [Except.map]

theorem readCell_eq_ok {pointer index value : Word} :
    readCell pointer index m = (.ok value, m') ↔ m.heap.read pointer index = .ok value ∧
    m' = m := by
  unfold readCell
  cases m.heap.read pointer index with
  | error e => exact iff_of_false nofun nofun
  | ok content =>
    constructor
    · intro h
      cases h
      exact ⟨rfl, rfl⟩
    · rintro ⟨⟨⟩, rfl⟩
      rfl

end Firestorm.Exec
