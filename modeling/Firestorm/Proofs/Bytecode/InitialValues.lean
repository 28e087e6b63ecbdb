import Firestorm.Native.Architecture
import Firestorm.Proofs.Bytecode.Startup
import Firestorm.Proofs.Native.Data

/-!
# Initial values in every backend

The interpreter, the section of the globals and the data of a native program give each global the
same initial value where all its definitions do. Otherwise they do not: the interpreter takes the
last definition, the other two take the first.

## Main results

* `Setting.initialValues_agree`: the initial values of the three are the same.
-/

namespace Firestorm.Setting

open Bytecode StackMachine Fallible

/-- Where all definitions of a name give it the same initial value, every global starts with the
same value in the interpreter, in the stack machine behind the section of the globals, and in the
data of a native program if it is a number. The heaps of the first two are the same. -/
theorem initialValues_agree {σ : Setting} {heap : Heap} {output : Output} {i : Interpreter}
    {c : Native.Convention} {primitives : List (Native.Primitive c.registers)}
    (hstart : Interpreter.start σ.program heap output = .ok i)
    (hnative : σ.program.toNative c = .ok primitives)
    (hsame : ∀ g ∈ σ.program.globals, ∀ g' ∈ σ.program.globals,
      g.binding.name = g'.binding.name → g.init = g'.init) :
    ∃ n s code data strings,
      (∀ k, run σ.image σ.header.unreachable (n + k) (.entering σ.image σ.header.globals)
        { heap := heap, output := output.bytes } = .returned s) ∧
      s.heap = i.machine.heap ∧ primitives = code ++ .data :: (data ++ Native.stringData strings) ∧
      ∀ g ∈ σ.program.globals, ∃ v, i.machine.globals.get? g.binding.name = some v ∧
        s.globals (σ.globalSlot g.binding.name) = some (cellOf v) ∧
        ∀ number, g.number? = some number →
          (∃ datum, .datum (globalLabel g.binding.name) datum ∈ data) ∧
          ∀ datum, .datum (globalLabel g.binding.name) datum ∈ data →
            datum.number? = some v.value := by
  simp only [Interpreter.start, except_bind_eq_ok, mapError_eq_ok] at hstart
  obtain ⟨functions, -, m, hglobals, hi⟩ := hstart
  cases hi
  have hdefs := Interpreter.foldlM_firstDefinitions hsame (List.Subset.refl _) []
    (by simp) hglobals
  obtain ⟨s, ⟨n, n', hn⟩, -, hs⟩ := reaches_initial
    (s := { heap := heap, output := output.bytes }) hdefs ⟨rfl, rfl, fun _ _ h => by cases h⟩
  obtain ⟨code, data, strings₀, strings, hdata, hprimitives⟩ := Native.exists_globalData hnative
  obtain ⟨hstored, hall⟩ := Native.datum_mem_globalData_iff hdata
  refine ⟨n, s, code, data, strings, hn, hs.heap, hprimitives, fun g hg => ?_⟩
  obtain ⟨value, hvalue, hget⟩ := Interpreter.settled_of_foldlM hsame hglobals hg
  refine ⟨_, hget, (hs.globals _ _ hget).2, fun number hnumber => ⟨?_, fun datum hmem => ?_⟩⟩
  · have hname : g.binding.name ∈ (firstDefinitions [] σ.program.globals).map (·.binding.name) :=
      mem_globalNames.2 ⟨g, hg, rfl⟩
    obtain ⟨g₀, hg₀, hname⟩ := List.mem_map.1 hname
    exact hname ▸ hall g₀ hg₀
  · -- What is stored is the value of the first definition, which gives the same number.
    obtain ⟨g₀, hg₀, hlabel, before, after, hdatum⟩ := hstored _ datum hmem
    have hname : g₀.binding.name = g.binding.name := (Native.globalLabel_injective hlabel).symm
    have hmem₀ := firstDefinitions_subset _ _ hg₀
    obtain ⟨value₀, -, hget₀⟩ := Interpreter.settled_of_foldlM hsame hglobals hmem₀
    have hnumber₀ : g₀.number? = some number := by
      rw [GlobalDef.number?, hsame g₀ hmem₀ g hg hname]
      exact hnumber
    rw [hname, hget] at hget₀
    have hdatatype : g₀.binding.datatype = g.binding.datatype :=
      congrArg Variable.datatype (Option.some_inj.1 hget₀).symm
    rw [Interpreter.initialValue_of_number? hnumber] at hvalue
    cases hvalue
    rw [Native.number?_globalDatum hdatum hnumber₀, hdatatype]
    rfl

/-- The global of the countdown starts with the same value everywhere. -/
theorem initialValues_agree_countdown : ∃ σ : Setting, σ.program = Program.countdown ∧
    ∃ i primitives, Interpreter.start Program.countdown (.ofCapacity 8) {} = .ok i ∧
      Program.countdown.toNative Architecture.x86.convention = .ok primitives ∧
      ∃ n s v, (∀ k, run σ.image σ.header.unreachable (n + k) (.entering σ.image σ.header.globals)
          { heap := .ofCapacity 8 } = .returned s) ∧
        i.machine.globals.get? "left" = some v ∧
        s.globals (σ.globalSlot "left") = some (cellOf v) := by
  obtain ⟨σ, hσ⟩ := exists_countdown
  have hstart : (Interpreter.start Program.countdown (.ofCapacity 8) {}).toOption.isSome =
      true := by
    cbv
  have hnative : (Program.countdown.toNative Architecture.x86.convention).toOption.isSome =
      true := by
    cbv
  obtain ⟨i, hi⟩ := exists_ok_of_isSome hstart
  obtain ⟨primitives, hprimitives⟩ := exists_ok_of_isSome hnative
  refine ⟨σ, hσ, i, primitives, hi, hprimitives, ?_⟩
  rw [← hσ] at hi hprimitives
  obtain ⟨n, s, _, _, _, hrun, -, -, hvalues⟩ := initialValues_agree hi hprimitives (by
    rw [hσ]
    decide)
  obtain ⟨v, hget, hslot, -⟩ := hvalues ⟨⟨"left", .int⟩, some (.number 2)⟩ (by
    rw [hσ]
    exact List.mem_cons_self ..)
  exact ⟨n, s, v, hrun, hget, hslot⟩

/-! ### A global that is defined twice -/

/-- A program that defines a global twice and returns its value. -/
def redefined : Program := ⟨[
  .global ⟨⟨"x", .int⟩, some (.number 1)⟩,
  .global ⟨⟨"x", .int⟩, some (.number 2)⟩,
  .function ⟨"spark", {}, [⟨"argc", .int⟩, ⟨"argv", ⟨.str, true⟩⟩], .int,
    .statements [.return_ (some (.lookup "x"))]⟩]⟩

set_option maxRecDepth 4000 in
theorem execute_redefined :
    (redefined.image?.bind fun image => execute image 100 (.ofCapacity 4) []) = some (1, #[]) := by
  rw [Program.image?_of_statements (by decide) (by decide)
    (by simp [redefined, Program.functions, FunctionDef.IsAssembly])]
  cbv

/-- The interpreter takes the last definition of a global, the section of the globals and the native
data take the first one. -/
theorem initialValues_redefined :
    (Interpreter.start redefined (.ofCapacity 4) {}).toOption.map (fun i => (i.run 20 []).1) =
      some (.ok 2) ∧
    (redefined.image?.bind fun image => execute image 100 (.ofCapacity 4) []) = some (1, #[]) ∧
    (Native.globalData [] [] redefined.globals).toOption =
      some ([(.datum "__global_x" (.quad 1) : Native.Primitive 1)], []) := by
  refine ⟨?_, execute_redefined, ?_⟩
  · cbv
  · cbv

end Firestorm.Setting
