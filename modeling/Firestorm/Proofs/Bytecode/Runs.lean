import Firestorm.Proofs.Bytecode.StackMachine
import Firestorm.Proofs.Interpreter.Computations

/-!
# Runs of the stack machine beside computations

A run of the stack machine leads from point to point: from one operation of an activation to
another, or to its end. A computation of the interpreter is simulated by a run if the run leads to a
point that fits the value of the computation, and ends with the same output where the program asks
to stop. Where the computation fails, nothing is said about the run.

## Main definitions

* `StackMachine.Point`, `StackMachine.Reaches`, `StackMachine.Simulates`.

## Main results

* `StackMachine.Reaches.call`, `StackMachine.Reaches.call_exited`, `StackMachine.Simulates.bind`.
-/

namespace Firestorm.StackMachine

variable {code : Word} {address : UInt64}

/-- A point of a run: an activation that goes on, or its end. -/
inductive Point
  | running (frame : Frame) (s : State)
  | ended (result : Result)

/-- How an activation ends from a point on. -/
def Point.result (image : List UInt8) (unreachable : UInt64) (fuel : Nat) : Point → Result
  | running frame s => run image unreachable fuel frame s
  | ended result => result

/-- From one point the run comes to the other, whatever the bound on its depth is beyond some
depth. -/
def Reaches (image : List UInt8) (unreachable : UInt64) (c c' : Point) : Prop :=
  ∃ n n', ∀ k, c.result image unreachable (n + k) = c'.result image unreachable (n' + k)

section

variable {image : List UInt8} {unreachable : UInt64} {c c' c'' : Point} {frame frame' : Frame}
  {s s' s'' : State}

-- The equations are generated once, in front of the proofs that open them.
attribute [local simp] run

namespace Reaches

theorem refl (c : Point) : Reaches image unreachable c c :=
  ⟨0, 0, fun _ => rfl⟩

theorem of_eq (h : c = c') : Reaches image unreachable c c' :=
  h ▸ refl c

theorem trans (h : Reaches image unreachable c c') (h' : Reaches image unreachable c' c'') :
    Reaches image unreachable c c'' := by
  obtain ⟨n₁, n₁', h₁⟩ := h
  obtain ⟨n₂, n₂', h₂⟩ := h'
  refine ⟨n₁ + n₂, n₂' + n₁', fun k => ?_⟩
  calc c.result image unreachable (n₁ + n₂ + k)
      = c'.result image unreachable (n₁' + (n₂ + k)) := by rw [Nat.add_assoc, h₁]
    _ = c'.result image unreachable (n₂ + (n₁' + k)) := by congr 1; omega
    _ = c''.result image unreachable (n₂' + n₁' + k) := by rw [h₂, Nat.add_assoc]

theorem next (h : step image frame s = some (.next frame' s')) :
    Reaches image unreachable (.running frame s) (.running frame' s') := by
  refine ⟨1, 0, fun k => ?_⟩
  rw [Nat.add_comm, Nat.zero_add, Point.result, Point.result, run, h]

theorem return_ (h : step image frame s = some (.return_ s')) :
    Reaches image unreachable (.running frame s) (.ended (.returned s')) := by
  refine ⟨1, 0, fun k => ?_⟩
  rw [Nat.add_comm, Point.result, run, h]
  rfl

theorem exit (h : step image frame s = some (.exit code s')) :
    Reaches image unreachable (.running frame s) (.ended (.exited code s')) := by
  refine ⟨1, 0, fun k => ?_⟩
  rw [Nat.add_comm, Point.result, run, h]
  rfl

/-- A call goes on behind the call once the function has returned. -/
theorem call (h : step image frame s = some (.call address frame' s'))
    (hcallee : Reaches image unreachable (.running (.entering image address) s')
      (.ended (.returned s''))) :
    Reaches image unreachable (.running frame s) (.running frame' s'') := by
  obtain ⟨n, n', hn⟩ := hcallee
  refine ⟨n + 1, n, fun k => ?_⟩
  have hreturned : run image unreachable (n + k) (.entering image address) s' = .returned s'' :=
    hn k
  rw [show n + 1 + k = n + k + 1 by omega, Point.result, run, h]
  simp only [hreturned]
  rfl

/-- A call of a function in which the program asks to stop does not go on. -/
theorem call_exited (h : step image frame s = some (.call address frame' s'))
    (hcallee : Reaches image unreachable (.running (.entering image address) s')
      (.ended (.exited code s''))) :
    Reaches image unreachable (.running frame s) (.ended (.exited code s'')) := by
  obtain ⟨n, n', hn⟩ := hcallee
  refine ⟨n + 1, n, fun k => ?_⟩
  have hexited : run image unreachable (n + k) (.entering image address) s' = .exited code s'' :=
    hn k
  rw [show n + 1 + k = n + k + 1 by omega, Point.result, run, h]
  simp only [hexited]
  rfl

end Reaches

end

/-! ### Computations of the interpreter -/

variable {α β : Type}

/-- The run from a point on simulates a computation: it comes to a point that fits the value and the
state, or the program asks to stop and both have printed the same. -/
def Simulates (image : List UInt8) (unreachable : UInt64) (c : Point) (x : Exec α) (m : Machine)
    (Q : α → Machine → Point → Prop) : Prop :=
  match x m with
  | (.ok a, m') => ∃ c', Reaches image unreachable c c' ∧ Q a m' c'
  | (.error (.exit code), m') =>
    ∃ s, Reaches image unreachable c (.ended (.exited code s)) ∧ s.output = m'.output.bytes
  | (.error _, _) => True

namespace Simulates

variable {image : List UInt8} {unreachable : UInt64} {c c' : Point} {m : Machine}
  {Q R : α → Machine → Point → Prop} {S : β → Machine → Point → Prop} {x : Exec α}

theorem of_ok {a : α} {m' : Machine} (hx : x m = (.ok a, m')) (h : Reaches image unreachable c c')
    (hQ : Q a m' c') : Simulates image unreachable c x m Q := by
  unfold Simulates
  rw [hx]
  exact ⟨c', h, hQ⟩

theorem congr {y : Exec α} (h : x m = y m) (hx : Simulates image unreachable c x m Q) :
    Simulates image unreachable c y m Q := by
  unfold Simulates at hx ⊢
  rwa [← h]

theorem of_fault {f : Fault} {m' : Machine} (hx : x m = (.error (.fault f), m')) :
    Simulates image unreachable c x m Q := by
  unfold Simulates
  rw [hx]
  trivial

theorem pure {a : α} (h : Reaches image unreachable c c') (hQ : Q a m c') :
    Simulates image unreachable c (Pure.pure a : Exec α) m Q :=
  ⟨c', h, hQ⟩

theorem fault (f : Fault) : Simulates image unreachable c (Exec.fault f : Exec α) m Q := trivial

theorem outOfFuel : Simulates image unreachable c (throw .outOfFuel : Exec α) m Q := trivial

theorem exit {s : State} (h : Reaches image unreachable c (.ended (.exited code s)))
    (houtput : s.output = m.output.bytes) :
    Simulates image unreachable c (throw (.exit code) : Exec α) m Q :=
  ⟨s, h, houtput⟩

theorem onHeap {operation : Heap → Except HeapError (α × Heap)}
    (h : ∀ a heap, operation m.heap = .ok (a, heap) →
      ∃ c', Reaches image unreachable c c' ∧ Q a { m with heap := heap } c') :
    Simulates image unreachable c (Exec.onHeap operation) m Q := by
  cases hm : operation m.heap with
  | error e => exact of_fault (by simp only [Exec.onHeap, hm]; rfl)
  | ok result =>
    obtain ⟨c', hc', hQ⟩ := h result.1 result.2 hm
    exact of_ok (by simp only [Exec.onHeap, hm]) hc' hQ

theorem onHeap_map {operation : Heap → Except HeapError Heap} {Q : Unit → Machine → Point → Prop}
    (h : ∀ heap, operation m.heap = .ok heap →
      ∃ c', Reaches image unreachable c c' ∧ Q () { m with heap := heap } c') :
    Simulates image unreachable c (Exec.onHeap fun h => (operation h).map fun h => ((), h))
      m Q := by
  refine onHeap fun _ heap hheap => ?_
  cases hm : operation m.heap with
  | error e =>
    rw [hm] at hheap
    cases hheap
  | ok heap' =>
    rw [hm] at hheap
    cases hheap
    exact h heap hm

theorem readCell {pointer index : Word} {Q : Word → Machine → Point → Prop}
    (h : ∀ value, m.heap.read pointer index = .ok value →
      ∃ c', Reaches image unreachable c c' ∧ Q value m c') :
    Simulates image unreachable c (Exec.readCell pointer index) m Q := by
  cases hm : m.heap.read pointer index with
  | error e => exact of_fault (by simp only [Exec.readCell, hm]; rfl)
  | ok value =>
    obtain ⟨c', hc', hQ⟩ := h value hm
    exact of_ok (by simp only [Exec.readCell, hm]) hc' hQ

theorem print {byte : UInt8} {Q : Unit → Machine → Point → Prop}
    (h : Reaches image unreachable c c')
    (hQ : Q () { m with output := { m.output with bytes := m.output.bytes.push byte } } c') :
    Simulates image unreachable c (Exec.print byte) m Q := by
  by_cases hroom : m.output.hasRoom
  · exact of_ok (by rw [Exec.print, if_pos hroom]) h hQ
  · exact of_fault (by rw [Exec.print, if_neg hroom])

theorem ofSymbols {y : Except SymbolError α}
    (h : ∀ a, y = .ok a → ∃ c', Reaches image unreachable c c' ∧ Q a m c') :
    Simulates image unreachable c (Exec.ofSymbols y) m Q := by
  cases hy : y with
  | error e => exact fault _
  | ok a =>
    obtain ⟨c', hc', hQ⟩ := h a hy
    exact pure hc' hQ

/-- A run that simulates a computation can be followed further. -/
theorem extend (h : Simulates image unreachable c x m Q)
    (hQ : ∀ a m' c', Q a m' c' → ∃ c'', Reaches image unreachable c' c'' ∧ R a m' c'') :
    Simulates image unreachable c x m R := by
  unfold Simulates at h ⊢
  split
  · next hx =>
    rw [hx] at h
    obtain ⟨c', hc', hQc⟩ := h
    obtain ⟨c'', hc'', hR⟩ := hQ _ _ _ hQc
    exact ⟨c'', hc'.trans hc'', hR⟩
  · next hx =>
    rw [hx] at h
    exact h
  · trivial

theorem mono (h : Simulates image unreachable c x m Q) (hQ : ∀ a m' c', Q a m' c' → R a m' c') :
    Simulates image unreachable c x m R :=
  h.extend fun a m' c' hQc => ⟨c', .refl c', hQ a m' c' hQc⟩

/-- A run that comes to a point from which on it simulates a computation simulates it from the
start. -/
theorem of_reaches (h : Reaches image unreachable c c')
    (hx : Simulates image unreachable c' x m Q) : Simulates image unreachable c x m Q := by
  unfold Simulates at hx ⊢
  split
  · next heq =>
    rw [heq] at hx
    obtain ⟨c'', hc'', hQ⟩ := hx
    exact ⟨c'', h.trans hc'', hQ⟩
  · next heq =>
    rw [heq] at hx
    obtain ⟨s, hs, houtput⟩ := hx
    exact ⟨s, h.trans hs, houtput⟩
  · trivial

/-- A run simulates one computation after another, the second of which may depend on what the first
has done. -/
theorem bind_of_eq {f : α → Exec β} (hx : Simulates image unreachable c x m Q)
    (hf : ∀ a m' c', x m = (.ok a, m') → Q a m' c' → Simulates image unreachable c' (f a) m' S) :
    Simulates image unreachable c (x >>= f) m S := by
  unfold Simulates at hx
  cases hxm : x m with
  | mk outcome m' =>
    rw [hxm] at hx
    cases outcome with
    | ok a =>
      obtain ⟨c', hc', hQ⟩ := hx
      have hfa := of_reaches hc' (hf a m' c' hxm hQ)
      unfold Simulates at hfa ⊢
      rwa [Exec.bind_apply, hxm]
    | error e =>
      unfold Simulates
      rw [Exec.bind_apply, hxm]
      cases e <;> exact hx

/-- A run simulates one computation after another. -/
theorem bind {f : α → Exec β} (hx : Simulates image unreachable c x m Q)
    (hf : ∀ a m' c', Q a m' c' → Simulates image unreachable c' (f a) m' S) :
    Simulates image unreachable c (x >>= f) m S :=
  hx.bind_of_eq fun a m' c' _ => hf a m' c'

/-- A call simulates a computation if the function that is called does. -/
theorem call {frame frame' : Frame} {s s' : State}
    (hstep : step image frame s = some (.call address frame' s'))
    (hx : Simulates image unreachable (.running (.entering image address) s') x m fun a m' c' =>
      ∃ s'', c' = .ended (.returned s'') ∧ Q a m' (.running frame' s'')) :
    Simulates image unreachable (.running frame s) x m Q := by
  unfold Simulates at hx ⊢
  split
  · next heq =>
    rw [heq] at hx
    obtain ⟨_, hcallee, s'', rfl, hQ⟩ := hx
    exact ⟨_, .call hstep hcallee, hQ⟩
  · next heq =>
    rw [heq] at hx
    obtain ⟨s'', hcallee, houtput⟩ := hx
    exact ⟨s'', .call_exited hstep hcallee, houtput⟩
  · trivial

end Simulates

end Firestorm.StackMachine
