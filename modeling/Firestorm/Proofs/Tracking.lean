import Mathlib.Tactic.Common
import Firestorm.Proofs.Fallible

/-!
# Computations that fail together

Two computations make the same checks if one of them fails where the other one fails, and with the
same error. Where they work on different states, the state of the one is seen by the other through a
view. Errors that only the first one knows are exempt.

## Main definitions

* `Matches`, `Tracks`.

## Main results

* `Matches.bind`, `Tracks.bind`, `Tracks.silent_bind`.
-/

namespace Firestorm

open Fallible

section

variable {σ δ ε α α' β β' : Type}

/-- If the first computation succeeds so does the second one, with a related value; if it fails with
an error that is not exempt, the second one fails with the same error. -/
structure Matches (exempt : ε → Prop) (R : α → β → Prop) (x : Except ε α) (y : Except ε β) :
    Prop where
  ok : ∀ {a}, x = .ok a → ∃ b, R a b ∧ y = .ok b
  error : ∀ {e}, x = .error e → exempt e ∨ y = .error e

namespace Matches

variable {exempt : ε → Prop} {R : α → β → Prop} {Q : α' → β' → Prop} {x : Except ε α}
  {y : Except ε β}

theorem pure {a : α} {b : β} (h : R a b) : Matches exempt R (.ok a) (.ok b) where
  ok hx := by
    cases hx
    exact ⟨b, h, rfl⟩
  error hx := by cases hx

theorem throw (e : ε) : Matches exempt R (.error e) (.error e) where
  ok hx := by cases hx
  error hx := by
    cases hx
    exact .inr rfl

theorem exempted {e : ε} (h : exempt e) : Matches exempt R (.error e) y where
  ok hx := by cases hx
  error hx := by
    cases hx
    exact .inl h

/-- One step after another. -/
theorem bind {f : α → Except ε α'} {g : β → Except ε β'} (hx : Matches exempt R x y)
    (hf : ∀ a b, R a b → Matches exempt Q (f a) (g b)) : Matches exempt Q (x >>= f) (y >>= g) := by
  cases x with
  | error e =>
    rcases hx.error rfl with he | rfl
    · exact exempted he
    · exact throw e
  | ok a =>
    obtain ⟨b, hR, rfl⟩ := hx.ok rfl
    exact hf a b hR

/-- A last step that only makes the value. -/
theorem finish (hx : Matches exempt R x y) (value : α → α') :
    Matches exempt (fun _ _ => True) (x >>= fun a => Pure.pure (value a)) y := by
  have h : Matches exempt (fun _ _ => True) (x >>= fun a => Pure.pure (value a))
      (y >>= Pure.pure) :=
    hx.bind fun a b _ => .pure trivial
  rwa [bind_pure] at h

/-- A computation that does not fail with an exempt error fails as the second one does. -/
theorem map_eq {y : Except ε Unit} {R : α → Unit → Prop} (h : Matches exempt R x y)
    (hexempt : ∀ e, x = .error e → ¬ exempt e) : x.map (fun _ => ()) = y := by
  cases x with
  | error e => exact ((h.error rfl).resolve_left (hexempt e rfl)).symm
  | ok a =>
    obtain ⟨b, -, rfl⟩ := h.ok rfl
    rfl

end Matches

/-- The first computation on a state matches the second one, which works on a view of the state. -/
def Tracks (exempt : ε → Prop) (view : σ → δ) (R : α → β → Prop) (x : StateT σ (Except ε) α)
    (y : StateT δ (Except ε) β) : Prop :=
  ∀ s, Matches exempt (fun r r' => R r.1 r'.1 ∧ view r.2 = r'.2) (x s) (y (view s))

namespace Tracks

variable {exempt : ε → Prop} {view : σ → δ} {R : α → β → Prop} {Q : α' → β' → Prop}
  {x : StateT σ (Except ε) α} {y : StateT δ (Except ε) β}

theorem pure {a : α} {b : β} (h : R a b) : Tracks exempt view R (Pure.pure a) (Pure.pure b) :=
  fun _ => .pure ⟨h, rfl⟩

theorem throw (e : ε) : Tracks exempt view R (throw e) (throw e) :=
  fun _ => .throw e

/-- One step after another. -/
theorem bind {f : α → StateT σ (Except ε) α'} {g : β → StateT δ (Except ε) β'}
    (hx : Tracks exempt view R x y) (hf : ∀ a b, R a b → Tracks exempt view Q (f a) (g b)) :
    Tracks exempt view Q (x >>= f) (y >>= g) := by
  intro s
  refine Matches.bind (hx s) fun r r' h => ?_
  have hnext := hf r.1 r'.1 h.1 r.2
  rwa [h.2] at hnext

/-- A step that the second computation does not make. -/
theorem silent_bind {f : α → StateT σ (Except ε) α'} {y : StateT δ (Except ε) β'}
    (hx : Tracks exempt view (fun _ _ => True) x (Pure.pure ()))
    (hf : ∀ a, Tracks exempt view Q (f a) y) : Tracks exempt view Q (x >>= f) y := by
  simpa using hx.bind (g := fun _ => y) fun a _ _ => hf a

/-- A check in front of a step. -/
theorem guard {p : Prop} [Decidable p] {e : ε} {f : α' → StateT σ (Except ε) α}
    {g : β' → StateT δ (Except ε) β} (hx : Tracks exempt view R x y) :
    Tracks exempt view R (if p then MonadExcept.throw e >>= f else x)
      (if p then MonadExcept.throw e >>= g else y) := by
  by_cases h : p
  · simp only [h, if_true]
    exact fun _ => .throw e
  · simpa only [h, if_false] using hx

theorem discard (hx : Tracks exempt view R x y) :
    Tracks exempt view (fun _ _ => True) (discard x) (discard y) := by
  change Tracks exempt view _ (x >>= fun _ => Pure.pure ()) (y >>= fun _ => Pure.pure ())
  exact hx.bind fun _ _ _ => .pure trivial

/-- A step whose value the second computation does not use. -/
theorem forget (hx : Tracks exempt view R x y) :
    Tracks exempt view (fun _ _ => True) x (Functor.discard y) := by
  rw [← bind_pure x]
  change Tracks exempt view _ (x >>= Pure.pure) (y >>= fun _ => Pure.pure ())
  exact hx.bind fun _ _ _ => .pure trivial

/-- A last step that only makes the value. -/
theorem finish (hx : Tracks exempt view R x y) (value : α → α') :
    Tracks exempt view (fun _ _ => True) (x >>= fun a => Pure.pure (value a)) y := by
  have h : Tracks exempt view (fun _ _ => True) (x >>= fun a => Pure.pure (value a))
      (y >>= Pure.pure) :=
    hx.bind fun a b _ => .pure trivial
  rwa [bind_pure] at h

end Tracks

end

end Firestorm
