import Firestorm.Proofs.Bytecode.Calls
import Firestorm.Proofs.Interpreter.Globals

/-!
# The start of a program

Before the entry point is called, the globals get their initial values and the arguments are put
into the heap. The machine does both as the interpreter does, where the first definition of each
global is enough.

## Main definitions

* `Setting.startingAt`.

## Main results

* `Setting.reaches_initial`, `Setting.enterArguments_eq`, `Setting.exists_execute`.
-/

namespace Firestorm.Setting

open Bytecode StackMachine Fallible

variable {σ : Setting}
variable {value : Word} {stack : List Word} {arguments : List String}

/-! ### Globals -/

/-- A point in front of some code of the section of the globals, behind the declarations of some. -/
def startingAt (σ : Setting) (tail : List UInt8) (globals : List String) (code : List CodeLine)
    (s : State) : Point :=
  .running ⟨codeBytes σ.symbols globalsSection ⟨globals, []⟩ code ++ tail, fun _ => none, false⟩ s

theorem site_nil (σ : Setting) : σ.Site [] [] :=
  ⟨⟨List.prefix_refl _, by decide⟩, by simp⟩

theorem holding_zero (d : Datatype) : Variable.holding d 0 = ⟨d, 0⟩ := by
  obtain ⟨kind, array⟩ := d
  cases kind <;> cases array <;> rfl

variable {tail : List UInt8} {globals : List String} {g : GlobalDef} {more : List CodeLine}
  {m m' : Machine} {s : State}

/-- A declaration gives a global its number and the value zero. -/
theorem reaches_global (hglobals : globals ++ [g.binding.name] <+: σ.globals) :
    σ.RunsTo
      (σ.startingAt tail globals (.instruction (.global g.binding) :: more) s)
      (σ.startingAt tail (globals ++ [g.binding.name]) more { s with
        globals := Function.update s.globals (σ.globalSlot g.binding.name)
          (some (cellOf ⟨g.binding.datatype, 0⟩)) }) := by
  have hnodup : (globals ++ [g.binding.name]).Nodup :=
    hglobals.sublist.nodup (nodup_firstDefinitions [] σ.program.globals)
  have hnew : g.binding.name ∉ globals := fun hmem =>
    (List.nodup_append.1 hnodup).2.2 _ hmem _ (List.mem_singleton_self _) rfl
  have hinsert : insertName globals g.binding.name = globals ++ [g.binding.name] := by
    rw [insertName, if_neg hnew]
  have hslot : UInt64.ofNat ((insertName globals g.binding.name).idxOf g.binding.name) =
      σ.globalSlot g.binding.name := by
    obtain ⟨rest, hrest⟩ := hglobals
    have hmem : g.binding.name ∈ globals ++ [g.binding.name] := by simp
    rw [hinsert, globalSlot, ← hrest, List.idxOf_append_of_mem hmem]
  refine .next ((step_codeBytes (i := .global g.binding) (by simp)).trans ?_)
  rw [Naming.command, hslot, Naming.after_global, hinsert]
  rfl

/-- An assignment gives a declared global its value. -/
theorem reaches_assign_global {cell : Cell} (hmem : g.binding.name ∈ σ.globals)
    (hstack : s.stack = value :: stack)
    (hcell : s.globals (σ.globalSlot g.binding.name) = some cell) : σ.RunsTo
      (σ.startingAt tail globals (access .assign g.binding.name :: more) s)
      (σ.startingAt tail globals more { s with
        stack := stack
        globals := Function.update s.globals (σ.globalSlot g.binding.name)
          (some (cell.assign value)) }) := by
  have hslot := σ.site_nil.slotOf_global hmem
  have hglobal := σ.site_nil.not_isLocal hmem
  rw [hslot] at hglobal
  refine .next ((step_codeBytes (i := .access .assign g.binding.name) (by simp)).trans ?_)
  change ((lookup _ s (σ.slotOf [] g.binding.name)).bind fun cell =>
    performAccess .assign cell (σ.slotOf [] g.binding.name) _ s) = _
  rw [hslot, lookup, if_neg hglobal, hcell, Option.bind_some, performAccess,
    State.pop_of_stack hstack]
  simp only [Option.bind_eq_bind, Option.bind_some, store, if_neg hglobal]
  rfl

variable (tail more) in
/-- The code of a global gives it its initial value. -/
theorem reaches_emitGlobal (hglobals : globals ++ [g.binding.name] <+: σ.globals)
    (hsize : ∀ content, g.init = some (.str content) → (Text.utf8 content.toList).length < 2 ^ 64)
    (hg : Interpreter.defineGlobal m g = .ok m') (hs : σ.StateAgrees m s) :
    ∃ s', σ.RunsTo (σ.startingAt tail globals (emitGlobal g ++ more) s)
        (σ.startingAt tail (globals ++ [g.binding.name]) more s') ∧
      s'.stack = s.stack ∧ σ.StateAgrees m' s' := by
  have hmem : g.binding.name ∈ σ.globals := hglobals.subset (by simp)
  obtain ⟨-, value, heap, hvalue, -, rfl⟩ := Interpreter.defineGlobal_eq_ok.1 hg
  unfold Interpreter.initialValue at hvalue
  rw [emitGlobal]
  cases hinit : g.init with
  | none =>
    rw [hinit] at hvalue
    cases hvalue
    refine ⟨_, reaches_global hglobals, rfl, hs.heap, hs.output, ?_⟩
    rw [holding_zero]
    exact hs.globals.set hmem _
  | some l =>
    rw [hinit] at hvalue
    have hliteral : s.heap.literal l = .ok (value, heap) := by rw [hs.heap, mapError_eq_ok.1 hvalue]
    refine ⟨_, (reaches_global hglobals).trans (.trans (.next (step_literal ?_ hliteral))
      (reaches_assign_global hmem rfl (Function.update_self ..))), rfl, rfl, hs.output, ?_⟩
    · rintro content rfl
      exact hsize content hinit
    · rw [assign_cellOf]
      change σ.GlobalsAgree _ (Function.update (Function.update _ _ _) _ _)
      rw [Function.update_idem]
      exact hs.globals.set hmem _

variable (tail more) in
/-- The code of globals gives them their initial values. -/
theorem reaches_emitGlobals {defs : List GlobalDef}
    (hglobals : globals ++ defs.map (·.binding.name) <+: σ.globals)
    (hsize : ∀ g ∈ defs, ∀ content, g.init = some (.str content) →
      (Text.utf8 content.toList).length < 2 ^ 64)
    (hdefs : defs.foldlM Interpreter.defineGlobal m = .ok m') (hs : σ.StateAgrees m s) :
    ∃ s', σ.RunsTo
        (σ.startingAt tail globals (defs.flatMap emitGlobal ++ more) s)
        (σ.startingAt tail (globals ++ defs.map (·.binding.name)) more s') ∧
      s'.stack = s.stack ∧ σ.StateAgrees m' s' := by
  induction defs generalizing globals m s with
  | nil =>
    cases hdefs
    exact ⟨s, .of_eq (by simp), rfl, hs⟩
  | cons g defs ih =>
    obtain ⟨hg, hdefsSize⟩ := List.forall_mem_cons.1 hsize
    rw [List.foldlM_cons, except_bind_eq_ok] at hdefs
    obtain ⟨m₁, hdefine, hdefs⟩ := hdefs
    have hsplit : globals ++ (g :: defs).map (·.binding.name) =
        globals ++ [g.binding.name] ++ defs.map (·.binding.name) := by simp
    rw [hsplit] at hglobals ⊢
    obtain ⟨s₁, hfirst, hstack₁, hs₁⟩ := reaches_emitGlobal tail
      (defs.flatMap emitGlobal ++ more) ((List.prefix_append _ _).trans hglobals) hg hdefine hs
    obtain ⟨s', hrest, hstack, hs'⟩ := ih hglobals hdefsSize hdefs hs₁
    rw [List.flatMap_cons, List.append_assoc]
    exact ⟨s', hfirst.trans hrest, hstack.trans hstack₁, hs'⟩

/-- The run that gives the globals their initial values. -/
theorem reaches_initial
    (hdefs : (firstDefinitions [] σ.program.globals).foldlM Interpreter.defineGlobal m = .ok m')
    (hs : σ.StateAgrees m s) :
    ∃ s', σ.RunsTo
        (.running (.entering σ.image σ.header.globals) s) (.ended (.returned s')) ∧
      s'.stack = 0 :: s.stack ∧ σ.StateAgrees m' s' := by
  obtain ⟨tail, hlies⟩ := σ.linked.initial
  obtain ⟨address, haddress, hdrop⟩ := hlies.entry
  obtain rfl : σ.header.globals = address :=
    Option.some_inj.1 (σ.linked.globals_eq.symm.trans haddress)
  have hsize : ∀ g ∈ firstDefinitions [] σ.program.globals, ∀ content,
      g.init = some (.str content) → (Text.utf8 content.toList).length < 2 ^ 64 := by
    intro g hg content hinit
    have hmem : .instruction (.string content) ∈ (globalsCode σ.program).code := by
      refine List.mem_append_left _ (List.mem_flatMap.2 ⟨g, hg, List.mem_cons_of_mem _ ?_⟩)
      simp [hinit, literal]
    have hlength := length_utf8_le σ.symbols globalsSection ⟨[], []⟩ hmem
    have himage := hlies.length_le
    have hlimit := σ.length_image
    change (codeBytes σ.symbols globalsSection ⟨[], []⟩ _).length ≤ _ at himage
    omega
  have hall : [] ++ (firstDefinitions [] σ.program.globals).map (·.binding.name) <+: σ.globals :=
    List.prefix_refl _
  obtain ⟨s₁, hrun, hstack, hs₁⟩ :=
    reaches_emitGlobals tail [number 0, plain .return_] hall hsize hdefs hs
  have hentering : Point.running (.entering σ.image σ.header.globals) s =
      σ.startingAt tail [] ((firstDefinitions [] σ.program.globals).flatMap emitGlobal ++
        [number 0, plain .return_]) s := by
    rw [StackMachine.Frame.entering, hdrop]
    rfl
  rw [hentering]
  refine ⟨s₁.push 0, hrun.trans (.trans (.next (step_codeBytes (i := .number 0) (by simp)))
    (.return_ (step_codeBytes (i := .plain .return_) (by simp)))), ?_, hs₁.push 0⟩
  exact congrArg (0 :: ·) hstack

/-! ### Arguments -/

theorem placeArguments_eq {argv : Word} {index : Nat}
    (h : Interpreter.storeArguments argv index arguments m = (.ok (), m')) :
    placeArguments argv index arguments m.heap = some m'.heap ∧
    m' = { m with heap := m'.heap } := by
  induction arguments generalizing index m with
  | nil =>
    obtain ⟨-, rfl⟩ := Exec.pure_eq_ok.1 h
    exact ⟨rfl, rfl⟩
  | cons argument arguments ih =>
    rw [Interpreter.storeArguments] at h
    obtain ⟨pointer, m₁, hintern, h⟩ := Exec.bind_eq_ok.1 h
    obtain ⟨heap₁, hpointer, rfl⟩ := Exec.onHeap_eq_ok.1 hintern
    obtain ⟨_, m₂, hwrite, h⟩ := Exec.bind_eq_ok.1 h
    obtain ⟨heap₂, hcell, rfl⟩ := Exec.onHeap_map_eq_ok.1 hwrite
    obtain ⟨hplace, hm'⟩ := ih h
    refine ⟨?_, hm'⟩
    simp only [placeArguments, hpointer, hcell, Except.toOption, Option.bind_eq_bind,
      Option.bind_some]
    exact hplace

/-- The entry point finds its arguments on the stack and in the heap. -/
theorem enterArguments_eq {argv : Word} {m₁ m₂ : Machine}
    (hallocate : Exec.allocate (Int64.ofNat arguments.length) m = (.ok argv, m₁))
    (hstore : Interpreter.storeArguments argv 0 arguments m₁ = (.ok (), m₂))
    (hs : σ.StateAgrees m s) (hstack : s.stack = value :: stack) :
    ∃ s', enterArguments arguments s = some s' ∧
      s'.stack = argv :: Int64.ofNat arguments.length :: stack ∧ σ.StateAgrees m₂ s' := by
  obtain ⟨heap, hargv, rfl⟩ := Exec.onHeap_eq_ok.1 hallocate
  obtain ⟨hplace, hm₂⟩ := placeArguments_eq hstore
  have hheap : s.heap.allocate (Int64.ofNat arguments.length) = .ok (argv, heap) := by
    rw [hs.heap, hargv]
  refine ⟨({ s with stack := stack, heap := m₂.heap }.push (Int64.ofNat arguments.length)).push
    argv, ?_, rfl, ?_⟩
  · simp only [enterArguments, State.pop_of_stack hstack, hheap, hplace, Except.toOption,
      Option.bind_eq_bind, Option.bind_some]
    rfl
  · rw [hm₂]
    exact ⟨rfl, hs.output, hs.globals⟩

/-! ### Runs of images -/

/-- A run that simulates a computation is observed to have its value, or the code with which the
program asked to stop. -/
theorem exists_observe {frame : StackMachine.Frame} {x : Exec Word}
    (h : σ.Mimics (.running frame s) x m (σ.Returned stack))
    (hx : Interpreter.catchExit x m = (.ok value, m')) :
    ∃ n, ∀ k, (run σ.image σ.header.unreachable (n + k) frame s).observed? =
      some (value, m'.output.bytes) := by
  unfold Interpreter.catchExit at hx
  unfold Mimics Simulates at h
  split at h
  · next hok =>
    rw [hok] at hx
    cases hx
    obtain ⟨_, ⟨n, n', hn⟩, s', rfl, hstack, hs'⟩ := h
    refine ⟨n, fun k => ?_⟩
    have hrun : run σ.image σ.header.unreachable (n + k) frame s = .returned s' := hn k
    rw [hrun, Result.observed?, State.pop_of_stack hstack, Option.map_some, hs'.output]
  · next hexit =>
    rw [hexit] at hx
    cases hx
    obtain ⟨s', ⟨n, n', hn⟩, houtput⟩ := h
    refine ⟨n, fun k => ?_⟩
    have hrun : run σ.image σ.header.unreachable (n + k) frame s = .exited value s' := hn k
    rw [hrun, Result.observed?, houtput]
  · next hne herror =>
    rw [herror] at hx
    split at hx
    · next heq =>
      cases heq
      exact absurd rfl (hne _)
    · cases hx

/-- An image does what the interpreter does, whatever the bound on its depth is beyond some
depth. -/
theorem exists_execute (hσ : σ.program.Consistent) {heap : Heap} {output : Output}
    {i i' : Interpreter} {fuel : Nat} (houtput : output.bytes = #[])
    (hstart : Interpreter.start σ.program heap output = .ok i)
    (hrun : i.run fuel arguments = (.ok value, i')) :
    ∃ n, ∀ k, execute σ.image (n + k) heap arguments = some (value, i'.machine.output.bytes) := by
  simp only [Interpreter.start, except_bind_eq_ok, mapError_eq_ok] at hstart
  obtain ⟨functions, hfunctions, m, hglobals, hi⟩ := hstart
  cases hi
  obtain rfl : functions = σ.names.functions :=
    Except.ok.inj (hfunctions.symm.trans σ.compiled.functions_eq)
  -- The globals get their initial values.
  have hdefs := Interpreter.foldlM_firstDefinitions hσ.globals (List.Subset.refl _) []
    (by simp) hglobals
  obtain ⟨s₁, ⟨n₁, n₁', hn₁⟩, hstack₁, hs₁⟩ := reaches_initial (s := { heap := heap }) hdefs
    ⟨rfl, houtput.symm, fun _ _ h => by cases h⟩
  -- The arguments are put into the heap.
  obtain ⟨f, hf, hname, hassembly⟩ := σ.linked.entryFunction
  have hget : σ.names.functions.get? Program.entryPoint = some f := by
    rw [← hname, FunctionTable.get?_of_mem σ.compiled.functions_eq hf]
  cases hcall : Interpreter.callEntryPoint σ.names.functions fuel arguments m with
  | mk result m' =>
  simp only [Interpreter.run, hcall] at hrun
  cases hrun
  rw [Interpreter.callEntryPoint, hget] at hcall
  obtain ⟨argv, m₁, hallocate, hcall⟩ := Exec.bind_eq_ok.1 hcall
  obtain ⟨_, m₂, hstore, hcall⟩ := Exec.bind_eq_ok.1 hcall
  obtain ⟨s₂, henter, hstack₂, hs₂⟩ := enterArguments_eq hallocate hstore hs₁ hstack₁
  -- The entry point is called, and the array of the arguments is taken back.
  obtain ⟨_, m₃, hcatch, hcall⟩ := Exec.bind_eq_ok.1 hcall
  obtain ⟨_, m₄, hdeallocate, hcall⟩ := Exec.bind_eq_ok.1 hcall
  obtain ⟨rfl, rfl⟩ := Exec.pure_eq_ok.1 hcall
  obtain ⟨_, -, rfl⟩ := Exec.onHeap_map_eq_ok.1 hdeallocate
  obtain ⟨a, rfl⟩ := σ.exists_activation hf (hname ▸ .entryPoint) hassembly
  have haddress : σ.symbols.get? a.function.name = some σ.header.entryPoint :=
    hname ▸ σ.linked.entryPoint_eq
  obtain ⟨n₂, hn₂⟩ := exists_observe ((simulated hσ fuel).call a [] haddress hstack₂ hs₂) hcatch
  refine ⟨n₁ + n₂, fun k => ?_⟩
  have hinitial : run σ.image σ.header.unreachable (n₁ + n₂ + k)
      (.entering σ.image σ.header.globals)
      { heap := heap } = .returned s₁ := Nat.add_assoc n₁ n₂ k ▸ hn₁ (n₂ + k)
  simp only [execute, σ.linked.readHeader_eq, Option.bind_eq_bind, Option.bind_some,
    hinitial, henter]
  rw [show n₁ + n₂ + k = n₂ + (n₁ + k) by omega]
  exact hn₂ (n₁ + k)

end Firestorm.Setting
