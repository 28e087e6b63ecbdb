import Firestorm.Proofs.Native.Closure
import Firestorm.Proofs.Native.Frames

/-!
# The bodies of native functions

What stands between the prologue and the exit of a function is made of regular primitives. It jumps
to the exit or to a label in the same body, and what it reads and writes in the frame are the slots
of its locals.

## Main definitions

* `Native.BodyOf`.

## Main results

* `Native.exists_bodyOf`, `Native.regular_of_functionUnit`, `Native.Assembled.regular_of_mem`.
-/

namespace Firestorm.Native

open Fallible

section

variable {c : Convention} {N : Names} {f : FunctionDef}

/-- What stands between the prologue and the exit of a function with a frame. -/
structure BodyOf (branches : Bool) (f : FunctionDef) (frame : Nat)
    (inner : List (Primitive c.registers)) : Prop where
  dvd_frame : 16 ∣ frame
  isInner_eq : inner.all Primitive.isInner = true
  mem_defined : ∀ label ∈ inner.flatMap (Primitive.defined branches), ∃ k,
    label = innerLabel f.name k
  regular : ∀ q ∈ inner, q.Regular f.name (inner.flatMap (Primitive.defined branches))
  size_eq : ∀ q ∈ inner, ∀ offset size, q.local? = some (offset, size) → size = 1 ∨ size = 8

/-- The unit of a function with statements is a body inside a frame. -/
theorem exists_bodyOf (branches : Bool) (hN : N.Keyed) (hf : ¬ f.IsAssembly) {lo hi : Nat}
    {strings strings' : List String} {u : FunctionCode c.registers}
    (h : functionUnit c N lo strings f = .ok (u, hi, strings')) :
    ∃ frame inner, u.code = framed f frame inner ∧ BodyOf branches f frame inner := by
  obtain ⟨body, stores, code, s₁, s, hbody, hstores, hcode, -, -, hframed, -⟩ :=
    functionUnit_eq_framed hf h
  obtain ⟨A, -, -, -, hA, htidy⟩ := emitted_body branches hN hbody hstores hcode
  refine ⟨s.layout.size, stores ++ code, hframed, FrameLayout.dvd_size _, hA.isInner_eq,
    fun label hlabel => ?_, ?_, fun q hq offset size hlocal => ?_⟩
  · rw [hA.defined_eq] at hlabel
    obtain ⟨k, -, rfl⟩ := List.mem_map.1 hlabel
    exact ⟨k, rfl⟩
  · intro q hq
    rw [hA.defined_eq]
    exact (hA.regular q hq).mono (List.map_subset _ htidy.jumps_subset)
  · obtain ⟨name, slot, -, heq⟩ := hA.accesses _ (List.mem_filterMap.2 ⟨q, hq, hlocal⟩)
    cases heq
    exact slot.datatype.size_eq

variable {q : Primitive c.registers}

theorem BodyOf.regular_of_mem {branches : Bool} {frame : Nat} {inner : List (Primitive c.registers)}
    (h : BodyOf branches f frame inner) (hq : q ∈ framed f frame inner) :
    q.Regular f.name (inner.flatMap (Primitive.defined branches)) := by
  by_cases hmem : q ∈ inner
  · exact h.regular q hmem
  · rcases List.mem_append.1 hq with hq | hq
    · obtain ⟨symbol, rfl⟩ := isExport_of_mem_exports hq
      trivial
    · obtain rfl | rfl | rfl | rfl | rfl : q = .label f.name ∨ q = .prologue frame ∨
          q = .loadConst (result c) 0 ∨
          q = .label (exitLabel f.name) ∨ q = .epilogue frame f.attributes.noreturn := by
        simpa [hmem, or_assoc] using hq
      all_goals trivial

/-- The primitives of the unit of a function, whether it has statements or not. -/
theorem regular_of_functionUnit (hN : N.Keyed) {lo hi : Nat} {strings strings' : List String}
    {u : FunctionCode c.registers} (h : functionUnit c N lo strings f = .ok (u, hi, strings'))
    (hq : q ∈ u.code) : (∃ targets, q.Regular f.name targets) ∧
      ∀ offset size, q.local? = some (offset, size) → size = 1 ∨ size = 8 := by
  by_cases hf : f.IsAssembly
  · obtain ⟨text, hbody⟩ := hf
    rw [(functionUnit_assembly hbody h).2.2.1] at hq
    have hcases : (∃ symbol, q = .exportSymbol symbol) ∨ q = .label f.name ∨
        q = .verbatim text := by
      rcases List.mem_append.1 hq with hq | hq
      · exact .inl (isExport_of_mem_exports hq)
      · exact .inr (by simpa using hq)
    rcases hcases with ⟨symbol, rfl⟩ | rfl | rfl <;> simp [Primitive.Regular, Primitive.local?]
  · obtain ⟨frame, inner, hcode, hbody⟩ := exists_bodyOf true hN hf h
    rw [hcode] at hq
    exact ⟨⟨_, hbody.regular_of_mem hq⟩, fun offset size hlocal =>
      hbody.size_eq q (mem_of_local? hq hlocal) offset size hlocal⟩

theorem regular_of_isOuter {n : Nat} {q : Primitive n} (h : q.isOuter = true) :
    (∀ function targets, q.Regular function targets) ∧ q.local? = none := by
  cases q <;> first | exact ⟨fun _ _ => trivial, rfl⟩ | cases h

/-- The primitives of the native code of a program. -/
theorem Assembled.regular_of_mem {branches : Bool} {p : Program}
    {kept : List (FunctionCode c.registers)} {entry trap data code : List (Primitive c.registers)}
    {pool : List String} (h : Assembled branches p N kept entry trap data pool code) (hN : N.Keyed)
    (hunits : ∀ u ∈ kept, ∃ lo hi strings strings',
      functionUnit c N lo strings u.function = .ok (u, hi, strings')) (hq : q ∈ code) :
    (∃ function targets, q.Regular function targets) ∧
      ∀ offset size, q.local? = some (offset, size) → size = 1 ∨ size = 8 := by
  cases houter : q.isOuter with
  | true =>
    obtain ⟨hregular, hlocal⟩ := regular_of_isOuter houter
    exact ⟨⟨"", [], hregular "" []⟩, by simp [hlocal]⟩
  | false =>
    obtain ⟨u, hu, hq⟩ := (h.mem_code_iff houter).1 hq
    obtain ⟨lo, hi, strings, strings', hunit⟩ := hunits u hu
    obtain ⟨⟨targets, hregular⟩, hsize⟩ := regular_of_functionUnit hN hunit hq
    exact ⟨⟨_, targets, hregular⟩, hsize⟩

end

end Firestorm.Native
