import Firestorm.Proofs.Heap.Leaks
import Firestorm.Proofs.Interpreter.Changes
import Firestorm.Proofs.Resolution

/-!
# What a run leaves in the heap

A run gets a block for the array of its arguments before the entry point is called, and gives it
back when the entry point has returned or the program has asked to stop. This file keeps a ledger of
the blocks of a run. All blocks that are left over behind it were left over before or have been
given out to calls of `allocate`, and the array is among them only if the run ended with an error.
If it did, the array is left over, unless the program itself has given it back.

## Main definitions

* `Interpreter.Visit.GivesOut`, `Interpreter.Visit.TakesBack`, `Interpreter.GivesOut`,
  `Interpreter.TakesBack`, `Interpreter.ArgvBlock`, `Interpreter.Ends`.

## Main results

* `Interpreter.ledger_behind`.
* `Interpreter.leaks_of_run`: the leaks behind a run.
* `Interpreter.leaks_of_run_dividing`: a run that ends with an error leaves the array of its
  arguments.
-/

namespace Firestorm.Interpreter

open Heap

variable {i : Interpreter}

/-! ### Calls that give out blocks and take them back -/

/-- The work on a call of the assembly function `allocate` gives out a block. -/
def Visit.GivesOut (functions : FunctionTable) (v : Visit) (b : Block) : Prop :=
  ∃ f arguments text m, v.task = .call f arguments ∧ f.name = "allocate" ∧ f.body = .assembly text ∧
    Interpreter.call functions v.fuel f arguments v.machine = (.ok b.pointer, m) ∧
    m.heap.blocks = v.machine.heap.blocks ++ [b]

/-- The work on a call of the assembly function `deallocate` takes back the block at a pointer. -/
def Visit.TakesBack (functions : FunctionTable) (v : Visit) (pointer : Word) : Prop :=
  ∃ f arguments text m, v.task = .call f arguments ∧ f.name = "deallocate" ∧
    f.body = .assembly text ∧ (arguments.map Prod.snd).headD 0 = pointer ∧
    Interpreter.call functions v.fuel f arguments v.machine = (.ok 0, m)

section

variable {functions : FunctionTable} {given : Block → Prop} {taken : Word → Prop} {m m' : Machine}

/-- A change of the state changes the leaks as the task says that makes it. -/
theorem Change.ledger {v : Visit} (h : Change functions v m m') (hvalid : m.heap.Valid)
    (hcapacity : m.heap.capacity ≤ 2 ^ 63) :
    Ledger (v.GivesOut functions) (v.TakesBack functions) m.heap m'.heap := by
  cases h with
  | intern hintern => exact hvalid.ledger_intern hcapacity hintern
  | write hwrite => exact hvalid.ledger_write hwrite
  | assign | print => exact .of_leaks_eq hvalid rfl rfl
  | allocate hname hbody hallocate hcall =>
    refine hvalid.ledger_allocate hcapacity hallocate fun b hb hblocks => ?_
    exact ⟨_, _, _, _, rfl, hname, hbody, hb ▸ hcall, hblocks⟩
  | deallocate hname hbody hdeallocate hcall =>
    exact hvalid.ledger_deallocate hcapacity hdeallocate ⟨_, _, _, _, rfl, hname, hbody, rfl, hcall⟩

/-- What is true of each step is true of all of them together. -/
theorem ledger_of_steps
    (h : Relation.ReflTransGen
      (fun m m' => m.heap.Valid → m.heap.capacity ≤ 2 ^ 63 →
        Ledger given taken m.heap m'.heap) m m')
    (hvalid : m.heap.Valid) (hcapacity : m.heap.capacity ≤ 2 ^ 63) :
    Ledger given taken m.heap m'.heap := by
  induction h with
  | refl => exact .of_leaks_eq hvalid rfl rfl
  | tail _ hstep ih => exact ih.trans (hstep ih.valid (ih.capacity_eq.trans_le hcapacity))

/-- The work on a task changes the leaks by the calls of `allocate` and `deallocate` to which it
comes. -/
theorem ledger_behind (functions : FunctionTable) (v : Visit) (hvalid : v.machine.heap.Valid)
    (hcapacity : v.machine.heap.capacity ≤ 2 ^ 63) :
    Ledger (fun b => ∃ u, Relation.ReflTransGen (Comes functions) v u ∧ u.GivesOut functions b)
      (fun pointer => ∃ u, Relation.ReflTransGen (Comes functions) v u ∧
        u.TakesBack functions pointer)
      v.machine.heap (v.behind functions).heap := by
  refine ledger_of_steps ?_ hvalid hcapacity
  refine Relation.ReflTransGen.mono (fun m m' hchanges hm hmcapacity => ?_)
    _ _ (changes_behind functions v)
  obtain ⟨u, hu, hchange⟩ := hchanges
  exact (hchange.ledger hm hmcapacity).mono (fun _ h => ⟨u, hu, h⟩) fun _ h => ⟨u, hu, h⟩

/-- The arguments of a run are strings, and no leaks. -/
theorem ledger_storeArguments (hvalid : m.heap.Valid) (hcapacity : m.heap.capacity ≤ 2 ^ 63)
    (argv : Word) (index : Nat) (arguments : List String) :
    Ledger given taken m.heap (storeArguments argv index arguments m).2.heap := by
  have hthrough : Through (fun m m' => m.heap.Valid → m.heap.capacity ≤ 2 ^ 63 →
      Ledger given taken m.heap m'.heap)
      (fun _ => True) (fun _ => True) (storeArguments argv index arguments) m :=
    .storeArguments (fun _ _ => trivial)
      (fun _ _ _ _ hintern hm hmcapacity => hm.ledger_intern hmcapacity hintern)
      (fun _ _ _ _ _ hwrite hm _ => hm.ledger_write hwrite) ..
  exact ledger_of_steps hthrough.state hvalid hcapacity

end

/-! ### The ways in which a run ends -/

/-- The block that a run gets for the array of its arguments. -/
def ArgvBlock (i : Interpreter) (arguments : List String) (b : Block) : Prop :=
  (i.functions.get? Program.entryPoint).isSome ∧
    ∃ m, Exec.allocate (Int64.ofNat arguments.length) i.machine = (.ok b.pointer, m) ∧
      m.heap.blocks = i.machine.heap.blocks ++ [b]

/-- A call of `allocate` to which a run comes gives out a block. -/
def GivesOut (i : Interpreter) (fuel : Nat) (arguments : List String) (b : Block) : Prop :=
  ∃ v, i.Visits fuel arguments v ∧ v.GivesOut i.functions b

/-- A call of `deallocate` to which a run comes takes back the block at a pointer. -/
def TakesBack (i : Interpreter) (fuel : Nat) (arguments : List String) (pointer : Word) : Prop :=
  ∃ v, i.Visits fuel arguments v ∧ v.TakesBack i.functions pointer

/-- The call of the entry point. -/
def entryTask (f : FunctionDef) (arguments : List String) (argv : Word) : Task :=
  .call f [(some .int, Int64.ofNat arguments.length), (some (.arrayOf .str), argv)]

/-- The ways in which a run ends. It may be refused before it gets a block, and stop when its
arguments have been stored in part, in the work on the call of the entry point, or when the array is
given back. -/
inductive Ends (i : Interpreter) (fuel : Nat) (arguments : List String) :
    Except Halt Word → Machine → Prop
  | refused {halt} (hblock : ∀ b, ¬ i.ArgvBlock arguments b) :
    Ends i fuel arguments (.error halt) i.machine
  | unprepared {f argv m₁ halt m₂} (hf : i.functions.get? Program.entryPoint = some f)
    (hallocate : Exec.allocate (Int64.ofNat arguments.length) i.machine = (.ok argv, m₁))
    (hstore : storeArguments argv 0 arguments m₁ = (.error halt, m₂)) :
      Ends i fuel arguments (.error halt) m₂
  | broken {f argv m₁ m₂ halt} (hf : i.functions.get? Program.entryPoint = some f)
    (hallocate : Exec.allocate (Int64.ofNat arguments.length) i.machine = (.ok argv, m₁))
    (hstore : storeArguments argv 0 arguments m₁ = (.ok (), m₂)) :
    Ends i fuel arguments (.error halt)
      (Visit.behind i.functions ⟨fuel, entryTask f arguments argv, m₂⟩)
  | finished {f argv m₁ m₂ value heap} (hf : i.functions.get? Program.entryPoint = some f)
    (hallocate : Exec.allocate (Int64.ofNat arguments.length) i.machine = (.ok argv, m₁))
    (hstore : storeArguments argv 0 arguments m₁ = (.ok (), m₂))
    (hdeallocate : (Visit.behind i.functions ⟨fuel, entryTask f arguments argv, m₂⟩).heap.deallocate
      argv = .ok heap) :
    Ends i fuel arguments (.ok value)
      { Visit.behind i.functions ⟨fuel, entryTask f arguments argv, m₂⟩ with heap := heap }

/-- A run ends in one of these ways. -/
theorem ends_of_callEntryPoint {fuel : Nat} {arguments : List String} {result : Except Halt Word}
    {m : Machine} (h : callEntryPoint i.functions fuel arguments i.machine = (result, m)) :
    i.Ends fuel arguments result m := by
  unfold callEntryPoint at h
  cases hf : i.functions.get? Program.entryPoint with
  | none =>
    rw [hf] at h
    cases h
    refine .refused ?_
    rintro b ⟨hentry, -⟩
    rw [hf] at hentry
    cases hentry
  | some f =>
    rw [hf] at h
    rcases Exec.bind_cases h with ⟨halt, m₁, hallocate, heq⟩ | ⟨argv, m₁, hallocate, h⟩
    · have hsame := Exec.eq_of_onHeap_error hallocate
      cases heq
      refine hsame ▸ .refused ?_
      rintro b ⟨-, _, hblock, -⟩
      cases hallocate.symm.trans hblock
    rcases Exec.bind_cases h with ⟨halt, m₂, hstore, heq⟩ | ⟨⟨⟩, m₂, hstore, h⟩
    · cases heq
      exact .unprepared hf hallocate hstore
    have hbehind : ∀ {outcome m₃}, catchExit (call i.functions fuel f
        [(some .int, Int64.ofNat arguments.length), (some (.arrayOf .str), argv)]) m₂ =
        (outcome, m₃) →
        Visit.behind i.functions ⟨fuel, entryTask f arguments argv, m₂⟩ = m₃ := fun hcall =>
      (catchExit_snd _ m₂).symm.trans (congrArg Prod.snd hcall)
    rcases Exec.bind_cases h with ⟨halt, m₃, hcall, heq⟩ | ⟨value, m₃, hcall, h⟩
    · cases heq
      exact hbehind hcall ▸ .broken hf hallocate hstore
    rcases Exec.bind_cases h with ⟨halt, m₄, hdeallocate, heq⟩ | ⟨⟨⟩, m₄, hdeallocate, h⟩
    · have hsame := (hbehind hcall).trans (Exec.eq_of_onHeap_error hdeallocate).symm
      cases heq
      exact hsame ▸ .broken hf hallocate hstore
    · obtain ⟨heap, hheap, rfl⟩ := Exec.onHeap_map_eq_ok.1 hdeallocate
      cases h
      cases hbehind hcall
      exact .finished hf hallocate hstore hheap

/-! ### Leaks behind a run -/

section

variable {i : Interpreter} {arguments : List String} {f : FunctionDef} {argv : Word}
  {m₁ m₂ : Machine}

/-- A run has one block for the array of its arguments. -/
theorem ArgvBlock.pointer_eq {b : Block} (hb : i.ArgvBlock arguments b)
    (hallocate : Exec.allocate (Int64.ofNat arguments.length) i.machine = (.ok argv, m₁)) :
    b.pointer = argv ∧ m₁.heap.blocks = i.machine.heap.blocks ++ [b] := by
  obtain ⟨-, m, hblock, hblocks⟩ := hb
  cases hallocate.symm.trans hblock
  exact ⟨rfl, hblocks⟩

variable (hvalid : i.machine.heap.Valid) (hcapacity : i.machine.heap.capacity ≤ 2 ^ 63)
  (hallocate : Exec.allocate (Int64.ofNat arguments.length) i.machine = (.ok argv, m₁))
include hvalid hcapacity hallocate

/-- Behind the storing of the arguments, the array of them is the only new leak. -/
theorem ledger_prepared (hf : i.functions.get? Program.entryPoint = some f) :
    Ledger (i.ArgvBlock arguments) (fun _ => False) i.machine.heap
      (storeArguments argv 0 arguments m₁).2.heap ∧
      ∀ b, i.ArgvBlock arguments b → b ∈ (storeArguments argv 0 arguments m₁).2.heap.leaks := by
  have hheap : i.machine.heap.allocate (Int64.ofNat arguments.length) = .ok (argv, m₁.heap) := by
    obtain ⟨heap, hheap, rfl⟩ := Exec.onHeap_eq_ok.1 hallocate
    exact hheap
  have hargv : Ledger (i.ArgvBlock arguments) (fun _ => False) i.machine.heap m₁.heap :=
    hvalid.ledger_allocate hcapacity hheap fun b hb hblocks =>
      ⟨Option.isSome_of_mem hf, m₁, hb ▸ hallocate, hblocks⟩
  have hm₁ : m₁.heap.capacity ≤ 2 ^ 63 := hargv.capacity_eq.trans_le hcapacity
  refine ⟨hargv.trans (ledger_storeArguments hargv.valid hm₁ ..), fun b hb => ?_⟩
  obtain ⟨c, -, hc, hleaks⟩ := hvalid.leaks_allocate hcapacity hheap
  obtain ⟨-, hblocks⟩ := hb.pointer_eq hallocate
  obtain rfl : b = c := by simpa using hblocks.symm.trans hc
  have hstored : Ledger (fun _ => False) (fun _ => False) m₁.heap
      (storeArguments argv 0 arguments m₁).2.heap :=
    ledger_storeArguments hargv.valid hm₁ ..
  exact (hstored.lost b (by simp [hleaks])).resolve_right id

/-- Behind the call of the entry point, the new leaks are the array of arguments and what calls of
`allocate` have given out, and the array is one of them unless a call of `deallocate` has taken it
back. -/
theorem ledger_called (fuel : Nat) (hf : i.functions.get? Program.entryPoint = some f)
    (hstore : storeArguments argv 0 arguments m₁ = (.ok (), m₂)) :
    Ledger (fun b => i.GivesOut fuel arguments b ∨ i.ArgvBlock arguments b)
      (i.TakesBack fuel arguments)
        i.machine.heap (Visit.behind i.functions ⟨fuel, entryTask f arguments argv, m₂⟩).heap ∧
      ∀ b, i.ArgvBlock arguments b →
        b ∈ (Visit.behind i.functions ⟨fuel, entryTask f arguments argv, m₂⟩).heap.leaks ∨
          i.TakesBack fuel arguments b.pointer := by
  have hvisits : ∀ {v}, Relation.ReflTransGen (Comes i.functions)
      ⟨fuel, entryTask f arguments argv, m₂⟩ v →
      i.Visits fuel arguments v := fun hcomes => ⟨f, argv, m₁, m₂, hf, hallocate, hstore, hcomes⟩
  obtain ⟨hprepared, hargv⟩ := ledger_prepared hvalid hcapacity hallocate hf
  rw [hstore] at hprepared hargv
  have hbehind := ledger_behind i.functions ⟨fuel, entryTask f arguments argv, m₂⟩ hprepared.valid
    (hprepared.capacity_eq.trans_le hcapacity)
  have hcalled : Ledger (fun b => i.GivesOut fuel arguments b ∨ i.ArgvBlock arguments b)
      (i.TakesBack fuel arguments) m₂.heap
      (Visit.behind i.functions ⟨fuel, entryTask f arguments argv, m₂⟩).heap := by
    refine hbehind.mono ?_ ?_
    · rintro b ⟨v, hcomes, hgives⟩
      exact .inl ⟨v, hvisits hcomes, hgives⟩
    · rintro pointer ⟨v, hcomes, htakes⟩
      exact ⟨v, hvisits hcomes, htakes⟩
  exact ⟨(hprepared.mono (fun _ => .inr) fun _ => False.elim).trans hcalled,
    fun b hb => hcalled.lost b (hargv b hb)⟩

end

/-- All leaks behind a run were leaks before or are blocks that a call of `allocate` in the run has
given out, except for the array of the arguments where the run ends with an error. The array is none
of them when the run ends with a value, be it returned by the entry point or the one with which the
program asked to stop. When the run ends with an error, also in the middle of storing the arguments,
the array is left over, unless the program has given it back itself. The heap stays in order, so
that all this is true of any run after any other one. -/
theorem leaks_of_run {i i' : Interpreter} (hvalid : i.machine.heap.Valid)
    (hcapacity : i.machine.heap.capacity ≤ 2 ^ 63) {fuel : Nat} {arguments : List String}
    {result : Except Halt Word} (hrun : i.run fuel arguments = (result, i')) :
    i'.machine.heap.Valid ∧ i'.machine.heap.capacity = i.machine.heap.capacity ∧
    (∀ b ∈ i'.machine.heap.leaks, b ∈ i.machine.heap.leaks ∨ i.GivesOut fuel arguments b ∨
      i.ArgvBlock arguments b ∧ ∃ halt, result = .error halt) ∧
    ∀ b, i.ArgvBlock arguments b →
      (∀ value, result = .ok value → b ∉ i'.machine.heap.leaks) ∧
      ∀ halt, result = .error halt → b ∈ i'.machine.heap.leaks ∨
        i.TakesBack fuel arguments b.pointer := by
  obtain ⟨functions, m⟩ := i'
  have hends : i.Ends fuel arguments result m :=
    ends_of_callEntryPoint
      (congrArg (fun r : Except Halt Word × Interpreter => (r.1, r.2.machine)) hrun)
  dsimp only
  clear hrun
  cases hends with
  | refused hblock => exact ⟨hvalid, rfl, fun b hb => .inl hb, fun b hb => absurd hb (hblock b)⟩
  | unprepared hf hallocate hstore =>
    obtain ⟨hledger, hargv⟩ := ledger_prepared hvalid hcapacity hallocate hf
    rw [hstore] at hledger hargv
    refine ⟨hledger.valid, hledger.capacity_eq, fun b hb => ?_,
      fun b hb => ⟨?_, fun _ _ => .inl (hargv b hb)⟩⟩
    · exact (hledger.gained b hb).imp_right fun hblock => .inr ⟨hblock, _, rfl⟩
    · intro value heq
      cases heq
  | broken hf hallocate hstore =>
    obtain ⟨hledger, hargv⟩ := ledger_called hvalid hcapacity hallocate fuel hf hstore
    refine ⟨hledger.valid, hledger.capacity_eq, fun b hb => ?_,
      fun b hb => ⟨?_, fun _ _ => hargv b hb⟩⟩
    · exact (hledger.gained b hb).imp_right (Or.imp_right fun hblock => ⟨hblock, _, rfl⟩)
    · intro value heq
      cases heq
  | finished hf hallocate hstore hdeallocate =>
    obtain ⟨hledger, -⟩ := ledger_called hvalid hcapacity hallocate fuel hf hstore
    obtain ⟨hvalid', hsame⟩ := hledger.valid.deallocate hdeallocate
    have hleaks := fun b => hledger.valid.mem_leaks_deallocate
      (hledger.capacity_eq.trans_le hcapacity) hdeallocate (b := b)
    refine ⟨hvalid', hsame.trans hledger.capacity_eq, fun b hb => ?_,
      fun b hblock => ⟨fun _ _ hb => ?_, ?_⟩⟩
    · -- The array has the pointer that is given back, so that it is none of the new leaks.
      obtain ⟨hb, hne⟩ := (hleaks b).1 hb
      rcases hledger.gained b hb with hold | hgiven | hblock
      · exact .inl hold
      · exact .inr (.inl hgiven)
      · exact absurd (hblock.pointer_eq hallocate).1 hne
    · exact ((hleaks b).1 hb).2 (hblock.pointer_eq hallocate).1
    · intro halt heq
      cases heq

/-! ### Interpreters that have been started -/

theorem valid_of_initialValue {heap heap' : Heap} {g : GlobalDef} {value : Word}
    (h : initialValue heap g = .ok (value, heap')) (hvalid : heap.Valid) :
    heap'.Valid ∧ heap'.capacity = heap.capacity := by
  unfold initialValue at h
  cases hinit : g.init with
  | none =>
    rw [hinit] at h
    cases h
    exact ⟨hvalid, rfl⟩
  | some l =>
    rw [hinit] at h
    have hliteral := Fallible.mapError_eq_ok.1 h
    cases l with
    | number | chr =>
      cases hliteral
      exact ⟨hvalid, rfl⟩
    | str content => exact hvalid.intern hliteral

/-- The heap of an interpreter that has been started is in order. -/
theorem valid_of_start {p : Program} {heap : Heap} {output : Output}
    (h : start p heap output = .ok i) (hvalid : heap.Valid) :
    i.machine.heap.Valid ∧ i.machine.heap.capacity = heap.capacity := by
  refine start_induction (P := fun m => m.heap.Valid ∧ m.heap.capacity = heap.capacity) h
    ⟨hvalid, rfl⟩ fun m g m' hg hm => ?_
  obtain ⟨-, value, heap', hvalue, -, rfl⟩ := defineGlobal_eq_ok.1 hg
  obtain ⟨hvalid', hsame⟩ := valid_of_initialValue hvalue hm.1
  exact ⟨hvalid', hsame.trans hm.2⟩

/-- A run calls functions of the program only. -/
theorem Visits.mem_functions {p : Program} {heap : Heap} {output : Output}
    (hstart : start p heap output = .ok i) {fuel : Nat} {arguments : List String} {v : Visit}
    (h : i.Visits fuel arguments v) {f : FunctionDef} {values : List (Option Datatype × Word)}
    (hv : v.task = .call f values) : f ∈ p.functions := by
  have hmem : ∀ {callee f}, i.functions.get? callee = some f → f ∈ p.functions := by
    intro callee f hget
    simp only [start, Fallible.except_bind_eq_ok, Fallible.mapError_eq_ok] at hstart
    obtain ⟨functions, hfunctions, m, -, hi⟩ := hstart
    cases hi
    exact (FunctionTable.mem_of_get? hfunctions hget).1
  obtain ⟨g, argv, m₁, m₂, hg, -, -, hcomes⟩ := h
  rcases hcomes.cases_tail with rfl | ⟨u, -, hlast⟩
  · cases hv
    exact hmem hg
  · cases hlast with
    | call hf =>
      cases hv
      exact hmem (FunctionTable.resolve_eq_ok.1 hf).1
    | _ => cases hv

/-- A program that keeps a block of two cells for itself. -/
def hoarding : Program := ⟨[
  .function ⟨"allocate", { assembly := true }, [⟨"cells", .int⟩], .int, .assembly ""⟩,
  .function ⟨"spark", {}, [⟨"argc", .int⟩, ⟨"argv", ⟨.str, true⟩⟩], .int, .statements [
    .return_ (some (.call "allocate" [.literal (.number 2)]))]⟩]⟩

theorem run_hoarding : (start hoarding (.ofCapacity 4) {}).toOption.map
    (fun i => (i.machine.heap.leaks, (i.run 20 []).1, (i.run 20 []).2.machine.heap.leaks)) =
      some ([], .ok 1, [⟨1, 2⟩]) := by cbv

/-- What is left over behind a run of `hoarding` has been given out to a call of `allocate`. -/
theorem leaks_of_run_hoarding :
    ∃ i, start hoarding (.ofCapacity 4) {} = .ok i ∧ i.machine.heap.Valid ∧
    i.machine.heap.capacity ≤ 2 ^ 63 ∧ (i.run 20 []).1 = .ok 1 ∧
    (i.run 20 []).2.machine.heap.leaks = [⟨1, 2⟩] ∧ i.GivesOut 20 [] ⟨1, 2⟩ := by
  obtain ⟨i, hstart, hrun⟩ := Fallible.exists_ok_of_map run_hoarding
  simp only [Prod.mk.injEq] at hrun
  obtain ⟨hbefore, hresult, hleaks⟩ := hrun
  obtain ⟨hvalid, hsame⟩ := valid_of_start hstart (valid_ofCapacity 4)
  have hcapacity : i.machine.heap.capacity ≤ 2 ^ 63 := hsame.trans_le (by decide)
  refine ⟨i, hstart, hvalid, hcapacity, hresult, hleaks, ?_⟩
  have hrun : i.run 20 [] = (.ok 1, (i.run 20 []).2) := Prod.ext hresult rfl
  obtain ⟨-, -, hgained, -⟩ := leaks_of_run hvalid hcapacity hrun
  rcases hgained ⟨1, 2⟩ (by simp [hleaks]) with hold | hgiven | ⟨-, halt, herror⟩
  · simp [hbefore] at hold
  · exact hgiven
  · cases herror

/-- A program that divides by zero. -/
def dividing : Program := ⟨[
  .function ⟨"spark", {}, [⟨"argc", .int⟩, ⟨"argv", ⟨.str, true⟩⟩], .int, .statements [
    .return_ (some (.binary .div (.literal (.number 1)) (.literal (.number 0))))]⟩]⟩

theorem run_dividing : (start dividing (.ofCapacity 4) {}).toOption.map
    (fun i => (i.machine.heap.leaks, (i.run 20 []).1, (i.run 20 []).2.machine.heap.leaks)) =
      some ([], .error (.fault .divisionByZero), [⟨0, 1⟩]) := by cbv

/-- The array of arguments is left over behind a run of `dividing`, which calls `allocate`
nowhere. -/
theorem leaks_of_run_dividing :
    ∃ i, start dividing (.ofCapacity 4) {} = .ok i ∧ i.machine.heap.leaks = [] ∧
    (i.run 20 []).1 = .error (.fault .divisionByZero) ∧ (i.run 20 []).2.machine.heap.leaks =
    [⟨0, 1⟩] ∧ ¬ i.GivesOut 20 [] ⟨0, 1⟩ := by
  obtain ⟨i, hstart, hrun⟩ := Fallible.exists_ok_of_map run_dividing
  simp only [Prod.mk.injEq] at hrun
  obtain ⟨hbefore, hresult, hleaks⟩ := hrun
  refine ⟨i, hstart, hbefore, hresult, hleaks, ?_⟩
  rintro ⟨v, hv, f, values, text, m, htask, hname, -⟩
  have hnames : ∀ f ∈ dividing.functions, f.name ≠ "allocate" := by decide
  exact hnames f (hv.mem_functions hstart htask) hname

end Firestorm.Interpreter
