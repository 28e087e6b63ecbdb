import Mathlib.Tactic.Common

/-!
# Computations that succeed

The parsers and code generators are computations on a state that may fail. A successful computation
splits into the successful computations it is made of. The lemmas of this file say so once for every
state and every kind of failure, so that what a definition does can be read off its text.

## Main results

* `Fallible.except_bind_eq_ok`.
* `Fallible.bind_eq_ok`, `Fallible.pure_eq_ok`, `Fallible.throw_ne_ok`: how a computation on a state
  succeeds.
-/

namespace Firestorm.Fallible

variable {σ ε α β : Type}
variable {x : Except ε α} {a : α} {e : ε} {f : α → β} {s : σ} {r : β × σ}

@[simp] theorem ok_bind (a : α) (f : α → Except ε β) : (Except.ok a >>= f) = f a := rfl

@[simp] theorem error_bind (e : ε) (f : α → Except ε β) :
    ((Except.error e : Except ε α) >>= f) = .error e := rfl

/-- Two steps without a state succeed if each of them does. -/
theorem except_bind_eq_ok {f : α → Except ε β} {b : β} :
    (x >>= f) = .ok b ↔ ∃ a, x = .ok a ∧ f a = .ok b := by
  cases x with
  | error e =>
    constructor
    · intro h
      cases h
    · rintro ⟨a, h, -⟩
      cases h
  | ok a =>
    constructor
    · intro h
      exact ⟨a, rfl, h⟩
    · rintro ⟨a', h, hf⟩
      cases h
      exact hf

theorem toOption_eq_some : x.toOption = some a ↔ x = .ok a := by
  cases x <;> simp [Except.toOption]

theorem exists_ok_of_isSome (h : x.toOption.isSome = true) : ∃ a, x = .ok a := by
  obtain ⟨a, ha⟩ := Option.isSome_iff_exists.1 h
  exact ⟨a, toOption_eq_some.1 ha⟩

theorem exists_ok_of_map {b : β} (h : x.toOption.map f = some b) : ∃ a, x = .ok a ∧ f a = b := by
  obtain ⟨a, ha, hb⟩ := Option.map_eq_some_iff.1 h
  exact ⟨a, toOption_eq_some.1 ha, hb⟩

/-- An error that the first of two steps does not have, if both together do not have it. -/
theorem ne_error_of_bind {f : α → Except ε β} (h : (x >>= f) ≠ .error e) : x ≠ .error e := by
  rintro rfl
  exact h rfl

theorem except_map_eq_ok {b : β} : x.map f = .ok b ↔ ∃ a, x = .ok a ∧ f a = b := by
  cases x <;> simp [Except.map]

theorem except_map_eq_error : x.map f = .error e ↔ x = .error e := by
  cases x <;> simp [Except.map]

theorem mapError_eq_ok {ε' : Type} {f : ε → ε'} : x.mapError f = .ok a ↔ x = .ok a := by
  cases x <;> simp [Except.mapError]

/-- Two steps on a state succeed if each of them does. -/
theorem bind_eq_ok {x : StateT σ (Except ε) α} {f : α → StateT σ (Except ε) β} :
    (x >>= f) s = .ok r ↔ ∃ a s', x s = .ok (a, s') ∧ f a s' = .ok r := by
  change (x s >>= fun p : α × σ => f p.1 p.2) = .ok r ↔ _
  rw [except_bind_eq_ok]
  exact ⟨fun ⟨p, hx, hf⟩ => ⟨p.1, p.2, hx, hf⟩, fun ⟨a, s', hx, hf⟩ => ⟨(a, s'), hx, hf⟩⟩

/-- Two steps on a state fail if one of them does. -/
theorem bind_eq_error {x : StateT σ (Except ε) α} {f : α → StateT σ (Except ε) β} :
    (x >>= f) s = .error e ↔ x s = .error e ∨ ∃ a s', x s = .ok (a, s') ∧ f a s' = .error e := by
  change (x s >>= fun r : α × σ => f r.1 r.2) = .error e ↔ _
  cases x s with
  | error e' => simp
  | ok r =>
    obtain ⟨a, s'⟩ := r
    simp

theorem pure_eq_ok {b : α} {t : σ} : (pure a : StateT σ (Except ε) α) s = .ok (b, t) ↔
    a = b ∧ s = t := by
  change Except.ok (a, s) = Except.ok (b, t) ↔ _
  simp

theorem throw_ne_ok {r : α × σ} : ¬ (throw e : StateT σ (Except ε) α) s = .ok r := by
  intro h
  cases h

theorem map_eq_ok {x : StateT σ (Except ε) α} :
    (f <$> x) s = .ok r ↔ ∃ a, x s = .ok (a, r.2) ∧ f a = r.1 := by
  change (x s >>= fun p : α × σ => pure (f p.1, p.2)) = .ok r ↔ _
  rw [except_bind_eq_ok]
  constructor
  · rintro ⟨p, hx, hf⟩
    cases hf
    exact ⟨p.1, hx, rfl⟩
  · rintro ⟨a, hx, hf⟩
    refine ⟨(a, r.2), hx, ?_⟩
    rw [hf]
    rfl

theorem discard_eq_ok {x : StateT σ (Except ε) α} {r : Unit × σ} :
    (discard x) s = .ok r ↔ ∃ a, x s = .ok (a, r.2) := by
  change (Function.const α PUnit.unit <$> x) s = .ok r ↔ _
  rw [map_eq_ok]
  simp

theorem get_bind (f : σ → StateT σ (Except ε) α) (s : σ) : (get >>= f) s = f s s := rfl

theorem get_eq_ok {r : σ × σ} : (get : StateT σ (Except ε) σ) s = .ok r ↔ r = (s, s) := by
  change Except.ok (s, s) = Except.ok r ↔ _
  simp [eq_comm]

theorem modify_eq_ok {f : σ → σ} {r : Unit × σ} :
    (modify f : StateT σ (Except ε) Unit) s = .ok r ↔ r = ((), f s) := by
  change Except.ok ((), f s) = Except.ok r ↔ _
  simp [eq_comm]

theorem modifyGet_eq_ok {f : σ → α × σ} {r : α × σ} :
    (modifyGet f : StateT σ (Except ε) α) s = .ok r ↔ r = f s := by
  change Except.ok (f s) = Except.ok r ↔ _
  simp [eq_comm]

/-- A computation behind a check succeeds if the check passes and it does. -/
theorem unless_eq_ok {p : Prop} [Decidable p] {f : α → StateT σ (Except ε) β}
    {x : StateT σ (Except ε) β} :
    (if p then throw e >>= f else x) s = .ok r ↔ ¬p ∧ x s = .ok r := by
  by_cases h : p
  · simp only [h, if_true, not_true_eq_false, false_and, iff_false]
    intro h'
    obtain ⟨a, s', hthrow, -⟩ := bind_eq_ok.1 h'
    exact throw_ne_ok hthrow
  · simp only [h, if_false, not_false_eq_true, true_and]

end Firestorm.Fallible
