import Firestorm.Proofs.Bytecode.Addresses
import Firestorm.Proofs.Bytecode.Resolution
import Firestorm.Proofs.Interpreter.Changes
import Firestorm.Proofs.Interpreter.Globals
import Firestorm.Proofs.Native.Scoping

/-!
# Names of variables

The interpreter takes a name for that of a local if the declaration of the local has been executed,
the code generators take it for that of a local if the declaration stands before it in the text. In
a settled program the two are the same wherever a run comes, and no variable is missing. An initial
value that mentions its own variable tells them apart.

## Main definitions

* `Interpreter.Follows`, `Interpreter.Visits`.

## Main results

* `Program.resolution_agrees`: names mean the same to the interpreter and to the code generators.
* `resolution_selfInitial`: they do not in an initial value that mentions its own variable.
-/

namespace Firestorm

open Bytecode Fallible StackMachine

namespace Interpreter

/-- An interpreter is what is left of another one behind a run. -/
def Follows (i i' : Interpreter) : Prop :=
  ∃ fuel arguments, i' = (i.run fuel arguments).2

/-- A run comes to a visit: the arguments have been put into the heap, and the work on the call of
the entry point comes there. -/
def Visits (i : Interpreter) (fuel : Nat) (arguments : List String) (v : Visit) : Prop :=
  ∃ f argv m₁ m₂, i.functions.get? Program.entryPoint = some f ∧
    Exec.allocate (Int64.ofNat arguments.length) i.machine = (.ok argv, m₁) ∧
    storeArguments argv 0 arguments m₁ = (.ok (), m₂) ∧
    Relation.ReflTransGen (Comes i.functions)
      ⟨fuel, .call f [(some .int, Int64.ofNat arguments.length), (some (.arrayOf .str), argv)], m₂⟩
      v

section

variable {i : Interpreter} {fuel : Nat} {arguments : List String}

/-- A run changes globals by assignments, however it ends, and an error of names that ends it is
that of a task to which it comes. -/
theorem through_callEntryPoint (i : Interpreter) (fuel : Nat) (arguments : List String) :
    Through (fun m m' => Assigned m.globals m'.globals)
      (fun halt => ∀ e, halt = .fault (.symbol e) → ∃ v, i.Visits fuel arguments v ∧
        Raises i.functions v halt)
      (fun _ => True) (callEntryPoint i.functions fuel arguments) i.machine := by
  have hlenient : Lenient fun halt => ∀ e, halt = .fault (.symbol e) →
      ∃ v, i.Visits fuel arguments v ∧ Raises i.functions v halt := fun _ h e he => absurd he (h e)
  unfold callEntryPoint
  cases hf : i.functions.get? Program.entryPoint with
  | none => exact .fault hlenient (by simp)
  | some f =>
    refine (Through.onHeap hlenient fun _ _ _ => .refl).bind fun argv m₁ hallocate _ => ?_
    refine (Through.storeArguments hlenient (fun _ _ _ _ _ => .refl) (fun _ _ _ _ _ _ => .refl)
      ..).bind fun _ m₂ hstore _ => ?_
    have hwork : Works i.functions ⟨fuel, .call f [(some .int, Int64.ofNat arguments.length),
        (some (.arrayOf .str), argv)], m₂⟩ (fun _ => True) (call i.functions fuel f _) m₂ :=
      orderly i.functions ⟨fuel, .call f _, m₂⟩
    refine (Through.catchExit (hwork.mono (fun _ _ h => assigned_of_changes (.single h)) ?_)).bind
      fun _ m₃ _ _ => (Through.onHeap_map hlenient fun _ _ => .refl).bind fun _ _ _ _ =>
      .pure trivial
    rintro halt ⟨v, hv, hraises⟩ e -
    exact ⟨v, ⟨f, argv, m₁, m₂, hf, hallocate, hstore, hv⟩, hraises⟩

theorem assigned_of_follows {i' : Interpreter} (h : Relation.ReflTransGen Follows i i') :
    Assigned i.machine.globals i'.machine.globals := by
  refine h.lift' (fun i => i.machine.globals) fun i _ hfollows => ?_
  obtain ⟨fuel, arguments, rfl⟩ := hfollows
  exact (through_callEntryPoint i fuel arguments).state.lift' Machine.globals fun _ _ h => h

/-- What has happened to globals and locals before a run comes to a task are assignments. -/
theorem Visits.assigned {v : Visit} (h : i.Visits fuel arguments v) :
    Assigned i.machine.globals v.machine.globals ∧ Assigned ∅ v.task.frame := by
  obtain ⟨f, argv, m₁, m₂, -, hallocate, hstore, hcomes⟩ := h
  obtain ⟨heap, -, rfl⟩ := Exec.onHeap_eq_ok.1 hallocate
  have hstored : Through (fun m m' => Assigned m.globals m'.globals) (fun _ => True) (fun _ => True)
      (storeArguments argv 0 arguments) { i.machine with heap := heap } :=
    .storeArguments (fun _ _ => trivial) (fun _ _ _ _ _ => .refl) (fun _ _ _ _ _ _ => .refl) ..
  have hm₂ := (hstored.reaches hstore).lift' Machine.globals fun _ _ h => h
  exact ⟨hm₂.trans (assigned_of_changes (changes_of_visited hcomes)),
    assigned_of_visited hcomes .refl⟩

end

/-- A task with its names in order does not miss a variable. -/
theorem Task.Ready.not_raises {p : Program} {N : Names} {v : Visit} {name : String}
    (hv : v.task.Ready p N) (hm : HasGlobals N v.machine) :
    ¬ Raises N.functions v (.fault (.symbol (.undefined name))) := by
  intro h
  cases h with
  | missing haccess hnone =>
    obtain ⟨hagrees, hnamed⟩ := hv.access haccess
    obtain ⟨w, hw⟩ := exists_variableOf hagrees hnamed hm
    cases hnone.symm.trans hw
  | unresolved he =>
    obtain ⟨f, hget, hlength⟩ := (hv _ (List.mem_cons_self ..)).resolves
    cases (FunctionTable.resolve_eq_ok.2 ⟨hget, hlength⟩).symm.trans he
  | unresolvedArgument he =>
    obtain ⟨f, hget, hlength⟩ := (hv _ (List.mem_append_left _ (List.mem_cons_self ..))).resolves
    cases (FunctionTable.resolve_eq_ok.2 ⟨hget, hlength⟩).symm.trans he
  | other h => exact h _ rfl

/-- An interpreter has the functions and the globals of a program. -/
structure Runs (N : Names) (i : Interpreter) : Prop where
  functions : i.functions = N.functions
  globals : HasGlobals N i.machine

section

variable {p : Program} {N : Names} (hglobals : GlobalTable.ofProgram p = .ok N.globals)
  (hfunctions : FunctionTable.ofProgram p = .ok N.functions)
include hfunctions

include hglobals in
theorem runs_of_start {heap : Heap} {output : Output} {i : Interpreter}
    (hstart : Interpreter.start p heap output = .ok i) : Runs N i := by
  simp only [Interpreter.start, except_bind_eq_ok, mapError_eq_ok] at hstart
  obtain ⟨functions, hfunctions', m, hdefine, hi⟩ := hstart
  cases hi
  refine ⟨Except.ok.inj (hfunctions'.symm.trans hfunctions), fun name d hd => ?_⟩
  obtain ⟨g, hg, hbinding⟩ := GlobalTable.mem_of_get? hglobals hd
  exact isSome_of_foldlM hdefine (.inr (List.mem_map.2 ⟨g, hg, by rw [hbinding]⟩))

omit hfunctions in
theorem Runs.follows {i i' : Interpreter} (h : Runs N i)
    (hruns : Relation.ReflTransGen Interpreter.Follows i i') : Runs N i' := by
  refine ⟨?_, fun name d hd => (assigned_of_follows hruns).isSome_get? (h.globals name d hd)⟩
  induction hruns with
  | refl => exact h.functions
  | tail _ hfollows ih =>
    obtain ⟨fuel, arguments, rfl⟩ := hfollows
    exact ih

variable (hinScope : ∀ f ∈ p.functions, ∀ body, f.body = .statements body →
    BlockScoped N (bindingsScope [] f.parameters.reverse) body)
  (hp : p.Settled)
include hinScope hp

theorem Visits.ready {i : Interpreter} (h : Runs N i) {fuel : Nat} {arguments : List String}
    {v : Visit} (hv : i.Visits fuel arguments v) : v.task.Ready p N ∧ HasGlobals N v.machine := by
  refine ⟨?_, fun name d hd => hv.assigned.1.isSome_get? (h.globals name d hd)⟩
  obtain ⟨f, argv, m₁, m₂, hf, -, -, hcomes⟩ := hv
  rw [h.functions] at hf hcomes
  obtain ⟨hmem, hname⟩ := FunctionTable.mem_of_get? hfunctions hf
  exact visited_ready hfunctions hinScope hp hcomes ⟨hmem, hname ▸ .entryPoint⟩

/-- No run of a settled program ends because a variable is missing. -/
theorem Runs.defined {i : Interpreter} (h : Runs N i) (fuel : Nat) (arguments : List String)
    (name : String) : (i.run fuel arguments).1 ≠ .error (.fault (.symbol (.undefined name))) := by
  intro heq
  obtain ⟨v, hv, hraises⟩ :=
    (through_callEntryPoint i fuel arguments).error (Prod.ext heq rfl) _ rfl
  obtain ⟨hready, hm⟩ := hv.ready hfunctions hinScope hp h
  rw [h.functions] at hraises
  exact hready.not_raises hm hraises

omit hinScope hp in
/-- A pass over all functions comes wherever a run comes. -/
theorem Visits.passed {T : Pass} (hT : T.Descends)
    (hfunction : ∀ f ∈ p.functions, ∀ body, f.body = .statements body →
      T.block (bindingsScope [] f.parameters.reverse) body)
    {i : Interpreter} (h : Runs N i) {fuel : Nat} {arguments : List String} {v : Visit}
    (hv : i.Visits fuel arguments v) : v.task.Passed T := by
  obtain ⟨f, argv, m₁, m₂, hf, -, -, hcomes⟩ := hv
  rw [h.functions] at hf hcomes
  refine visited_passed hT (fun callee g hg => ?_) hcomes ?_
  · exact hfunction g (FunctionTable.mem_of_get? hfunctions hg).1
  · exact hfunction f (FunctionTable.mem_of_get? hfunctions hf).1

end

end Interpreter

/-- Wherever a run of a settled program with bytecode comes, the generator of bytecode has been, and
so has the generator of native code where there is native code. A name that the run reads or assigns
to is that of a local of the interpreter exactly if the generators have looked it up as a local
there. Otherwise it is that of a global that the interpreter has. No run ends because a variable is
missing, whatever runs there were before. -/
theorem Program.resolution_agrees {p : Program} {sections : List Section}
    (hsections : p.toBytecode = .ok sections) (hp : p.Settled) {heap : Heap} {output : Output}
    {i₀ i : Interpreter} (hstart : Interpreter.start p heap output = .ok i₀)
    (hruns : Relation.ReflTransGen Interpreter.Follows i₀ i) (fuel : Nat)
    (arguments : List String) :
    ∃ N : Names, GlobalTable.ofProgram p = .ok N.globals ∧
      FunctionTable.ofProgram p = .ok N.functions ∧
      (∀ v, i.Visits fuel arguments v → v.task.Passed (emission N) ∧
        (∀ c code, p.toNative c = .ok code →
          v.task.Passed (Native.generation c ⟨N.globals, N.functions⟩)) ∧
        ∀ scope F name, v.task.access? = some (scope, F, name) →
          LooksUp N scope name (F.get? name).isSome ∧
          (∀ c code, p.toNative c = .ok code →
            Native.LooksUp ⟨N.globals, N.functions⟩ scope name (F.get? name).isSome) ∧
          (F.get? name = none → (v.machine.globals.get? name).isSome)) ∧
      ∀ name, (i.run fuel arguments).1 ≠ .error (.fault (.symbol (.undefined name))) := by
  obtain ⟨N, hglobals, hfunctions, hemission⟩ := exists_emission hsections
  have hkeyed : N.Keyed := fun _ _ hf => (FunctionTable.mem_of_get? hfunctions hf).2
  have hinScope : ∀ f ∈ p.functions, ∀ body, f.body = .statements body →
      BlockScoped N (bindingsScope [] f.parameters.reverse) body := by
    intro f hf body hbody
    obtain ⟨s, r, hs, h⟩ := hemission f hf body hbody
    exact hs ▸ (emitBlock_eq_ok hkeyed body h).2.1
  have hi := (Interpreter.runs_of_start hglobals hfunctions hstart).follows hruns
  refine ⟨N, hglobals, hfunctions, ?_, hi.defined hfunctions hinScope hp fuel arguments⟩
  · intro v hv
    obtain ⟨hready, hm⟩ := hv.ready hfunctions hinScope hp hi
    have hemitted := hv.passed hfunctions (descends_emission hkeyed) hemission hi
    have hdescends := fun c => Native.descends_generation c (N := ⟨N.globals, N.functions⟩) hkeyed
    have hgenerated : ∀ c code, p.toNative c = .ok code →
        v.task.Passed (Native.generation c ⟨N.globals, N.functions⟩) := fun c code hcode =>
      hv.passed hfunctions (hdescends c) (Native.exists_generation hcode hglobals hfunctions) hi
    refine ⟨hemitted, hgenerated, fun scope F name haccess => ?_⟩
    obtain ⟨hagrees, hnamed⟩ := hready.access haccess
    have hlocal : (F.get? name).isSome = decide (name ∈ scope) := by
      rw [Bool.eq_iff_iff, decide_eq_true_iff]
      exact hagrees
    rw [hlocal]
    refine ⟨?_, fun c code hcode => ?_, fun hnone => ?_⟩
    · exact hemitted.access (descends_emission hkeyed) looksUp_of_emitExpr
        looksUp_of_emitStmt haccess
    · exact (hgenerated c code hcode).access (hdescends c) Native.looksUp_of_expr
        Native.looksUp_of_stmt haccess
    · have hscope : name ∉ scope := fun hmem => by simpa [hnone] using hagrees.2 hmem
      obtain ⟨d, hd⟩ := hnamed.resolve_left hscope
      exact hm name d hd

/-- The sum of three squares, each in a local of a round of a loop. -/
def squares : Program := ⟨[
  .global ⟨⟨"total", .int⟩, none⟩,
  .function ⟨"spark", {}, [⟨"argc", .int⟩, ⟨"argv", ⟨.str, true⟩⟩], .int,
    .statements [
      .declare ⟨"left", .int⟩ (some (.literal (.number 3))),
      .while_ (.lookup "left") [
        .declare ⟨"square", .int⟩ (some (.binary .mul (.lookup "left") (.lookup "left"))),
        .assign "total" (.binary .add (.lookup "total") (.lookup "square")),
        .decrement "left"],
      .return_ (some (.lookup "total"))]⟩]⟩

theorem settled_squares : squares.Settled := by
  intro f hf _ body hbody
  obtain rfl : f = _ := by simpa [squares, Program.functions] using hf
  cases hbody
  decide

theorem toBytecode_squares : squares.toBytecode.toOption.isSome = true := by cbv

theorem start_squares : (Interpreter.start squares (.ofCapacity 4) {}).toOption.map
    (fun i => (i.run 60 []).1) = some (.ok 14) := by cbv

/-- The first run ends with the sum, and the names of a second one mean the same to the bytecode. -/
theorem Program.resolution_agrees_squares :
    ∃ i, Interpreter.start squares (.ofCapacity 4) {} = .ok i ∧ (i.run 60 []).1 = .ok 14 ∧
    (∃ N : Names, ∀ v scope F name, (i.run 60 []).2.Visits 60 [] v →
      v.task.access? = some (scope, F, name) → LooksUp N scope name (F.get? name).isSome) ∧
    ∀ name, ((i.run 60 []).2.run 60 []).1 ≠ .error (.fault (.symbol (.undefined name))) := by
  obtain ⟨sections, hsections⟩ := exists_ok_of_isSome toBytecode_squares
  obtain ⟨i, hstart, hrun⟩ := exists_ok_of_map start_squares
  have hfollows : Interpreter.Follows i (i.run 60 []).2 := ⟨60, [], rfl⟩
  obtain ⟨N, -, -, hvisits, hdefined⟩ :=
    Program.resolution_agrees hsections settled_squares hstart (.single hfollows) 60 []
  refine ⟨i, hstart, hrun, ⟨N, ?_⟩, hdefined⟩
  exact fun v scope F name hv haccess => ((hvisits v hv).2.2 scope F name haccess).1

/-- A local whose initial value mentions the local. -/
def selfInitial : Program := ⟨[
  .function ⟨"spark", {}, [⟨"argc", .int⟩, ⟨"argv", ⟨.str, true⟩⟩], .int,
    .statements [.declare ⟨"y", .int⟩ (some (.lookup "y")), .return_ (some (.lookup "y"))]⟩]⟩

set_option maxRecDepth 4000 in
theorem execute_selfInitial :
    (selfInitial.image?.bind fun image => execute image 100 (.ofCapacity 4) []) =
    some (0, #[]) := by
  rw [Program.image?_of_statements (by decide) (by decide)
    (by simp [selfInitial, Program.functions, FunctionDef.IsAssembly])]
  cbv

/-- The interpreter misses the variable, the stack machine reads it. -/
theorem resolution_selfInitial :
    (Interpreter.start selfInitial (.ofCapacity 4) {}).toOption.map (fun i => (i.run 20 []).1) =
      some (.error (.fault (.symbol (.undefined "y")))) ∧
    (selfInitial.image?.bind fun image => execute image 100 (.ofCapacity 4) []) =
    some (0, #[]) := by
  refine ⟨?_, execute_selfInitial⟩
  cbv

end Firestorm
