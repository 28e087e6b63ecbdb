import Firestorm.Proofs.Bytecode.Conformance

/-!
# Accesses to elements

The interpreter reads a variable before the index of the element, and before the value that the
element is to have. The code of the access reads it behind them. The two use one value of the
variable if the index and the value leave the variable as it was, and they can be told apart if
these call a function that assigns to it.

## Main definitions

* `Setting.Activation.Computes`.

## Main results

* `Setting.Activation.indexedAccess`: what an access to an element reads, and when the two agree.
-/

namespace Firestorm.Setting

open Bytecode StackMachine

/-- Some code pushes the words that a computation of the interpreter gives. -/
def Activation.Computes {σ : Setting} (a : σ.Activation) {α : Type} (k : Naming)
    (code more : List CodeLine) (slots : Slots) (s : State) (m : Machine) (x : Exec α)
    (words : α → List Word) : Prop :=
  Simulates σ.image σ.header.unreachable (a.at_ k (code ++ more) slots s) x m fun value =>
    a.Stands k more slots (words value ++ s.stack)

/-- Let the code of the operands of an access to an element do what the interpreter does. Then the
code of the access does what the interpreter would do if it read the variable behind them, while the
interpreter goes on with the value that the variable had before them. The code does what the
interpreter does if the operands leave the variable as it was. -/
theorem Activation.indexedAccess {σ : Setting} (a : σ.Activation) (fuel n : Nat) {k : Naming}
    (more : List CodeLine) {F : Firestorm.Frame} {m : Machine} {slots : Slots} {s : State}
    {name : String} (hname : σ.Knows k.locals F slots name) (i e : Expr) :
    (a.Computes k (exprCode σ.names.functions i) (access .loadIndexed name :: more) slots s m
        (Interpreter.eval σ.names.functions fuel F i) (fun x => [x]) →
      a.Computes k (exprCode σ.names.functions (.index name i)) more slots s m
        (Interpreter.elementBehind σ.names.functions fuel F name i) (fun x => [x]) ∧
      (∀ v, Interpreter.variableOf F m name = some v →
        Interpreter.eval σ.names.functions (fuel + 1) F (.index name i) m =
          (Interpreter.eval σ.names.functions fuel F i >>= Interpreter.element v) m) ∧
      ((∀ v x m', Interpreter.variableOf F m name = some v →
          Interpreter.eval σ.names.functions fuel F i m = (.ok x, m') →
            Interpreter.variableOf F m' name = some v) →
        a.Computes k (exprCode σ.names.functions (.index name i)) more slots s m
          (Interpreter.eval σ.names.functions (fuel + 1) F (.index name i)) (fun x => [x]))) ∧
    (a.Computes k (exprCode σ.names.functions i ++ exprCode σ.names.functions e)
        (access .assignIndexed name :: more) slots s m
        (Interpreter.evalBoth σ.names.functions fuel F i e) (fun p => [p.2, p.1]) →
      a.Computes k (stmtCode σ.names.functions (.assignIndexed name i e) n) more slots s m
        (Interpreter.assignBehind σ.names.functions fuel F name i e) (fun _ => []) ∧
      (∀ v, Interpreter.variableOf F m name = some v → v.datatype.array = true →
        Interpreter.execStmt σ.names.functions (fuel + 1) F (.assignIndexed name i e) m =
          (Interpreter.evalBoth σ.names.functions fuel F i e >>= fun p =>
            Interpreter.assignElement F name v p.1 p.2) m) ∧
      ((∀ v p m', Interpreter.variableOf F m name = some v →
          Interpreter.evalBoth σ.names.functions fuel F i e m = (.ok p, m') →
            Interpreter.variableOf F m' name = some v) →
        a.Computes k (stmtCode σ.names.functions (.assignIndexed name i e) n) more slots s m
          (Interpreter.execStmt σ.names.functions (fuel + 1) F (.assignIndexed name i e))
          (fun _ => []))) := by
  unfold Computes
  rw [exprCode, stmtCode]
  simp only [List.append_assoc]
  refine ⟨fun hi => ⟨simulates_elementBehind a more hname hi, fun v => Interpreter.eval_index_apply,
    simulates_index a more hname hi⟩, fun hoperands => ⟨?_, fun v =>
    Interpreter.execStmt_assignIndexed_apply, fun hleaves => ?_⟩⟩
  · exact (simulates_assignBehind a more hname hoperands).mono fun _ _ _ h => h.2
  · exact (simulates_assignIndexed a more hname hoperands hleaves).mono fun _ _ _ h => h.2

/-! ### Operands that leave the variable as it was -/

/-- A program with an array, and a function that counts its calls and leaves the array as it was. -/
def counting : Program := ⟨[
  .global ⟨⟨"cells", ⟨.int, true⟩⟩, none⟩,
  .global ⟨⟨"count", .int⟩, none⟩,
  .function ⟨"next", {}, [], .int,
    .statements [.increment "count", .return_ (some (.lookup "count"))]⟩,
  .function ⟨"spark", {}, [⟨"argc", .int⟩, ⟨"argv", ⟨.str, true⟩⟩], .int,
    .statements [.return_ (some (.call "next" []))]⟩]⟩

theorem conforming_counting : counting.Conforming where
  globals_nodup := by decide
  separated := by
    unfold Program.Separated
    decide
  parameters_nodup := by decide
  initial := by
    simp [counting, Program.functions, FunctionDef.statements, Body.block, Stmt.partsOf, Stmt.parts]
  returns := by
    have hreturns : ∀ f ∈ counting.functions, f.returns ≠ .chr := by decide
    exact fun f hf _ => hreturns f hf
  index := by
    simp [counting, Program.functions, FunctionDef.expressions, Stmt.expressionsOf, Body.block,
      Stmt.partsOf, Stmt.parts, Stmt.operands, Expr.parts, Expr.partsOf]
  assignIndexed := by
    simp [counting, Program.functions, FunctionDef.statements, Body.block, Stmt.partsOf, Stmt.parts]
  assembly := by simp [counting, Program.functions, FunctionDef.IsAssembly]

set_option maxRecDepth 4000 in
theorem exists_counting : ∃ σ : Setting, σ.program = counting := by
  have hassembly : ∀ f ∈ counting.functions, f.attributes.assembly = false ∧ ¬ f.IsAssembly := by
    simp [counting, Program.functions, FunctionDef.IsAssembly]
  have hp : counting.Worded := Program.worded_of_statements (by decide) (by decide) hassembly
  have hlength : (counting.toBytecode.toOption.bind fun sections =>
      (link (sectionsItems [] sections)).toOption).map List.length = some 173 := by
    cbv
  obtain ⟨image, himage, hlength⟩ := Option.map_eq_some_iff.1 hlength
  obtain ⟨sections, hsections, hlink⟩ := Option.bind_eq_some_iff.1 himage
  have hsections := Fallible.toOption_eq_some.1 hsections
  have hencode := Program.encode_of_natives hp hsections fun f hf h => absurd h (hassembly f hf).2
  obtain ⟨σ, hσ, -⟩ := exists_of_link hp hsections hencode (Fallible.toOption_eq_some.1 hlink)
    (by rw [hlength]; decide) (by decide)
  exact ⟨σ, hσ⟩

/-- A state of the interpreter in which the array begins at cell zero and holds seven at index
one. -/
def countingMachine : Machine :=
  { globals := ((∅ : Firestorm.Frame).set "cells" ⟨⟨.int, true⟩, 0⟩).set "count" ⟨.int, 0⟩
    heap := (Heap.ofCapacity 4).setCell 1 7 }

/-- The same state of the stack machine. -/
def countingState (σ : Setting) : State :=
  { globals := Function.update (Function.update (fun _ => none) (σ.globalSlot "cells")
      (some (cellOf ⟨⟨.int, true⟩, 0⟩))) (σ.globalSlot "count") (some (cellOf ⟨.int, 0⟩))
    heap := (Heap.ofCapacity 4).setCell 1 7 }

section

variable {σ : Setting} (hσ : σ.program = counting)
include hσ

theorem stateAgrees_counting : σ.StateAgrees countingMachine (countingState σ) := by
  have hmem : "cells" ∈ σ.globals ∧ "count" ∈ σ.globals := by
    rw [σ.mem_globals, σ.mem_globals, hσ]
    decide
  have hnone : σ.GlobalsAgree ∅ fun _ => none := fun _ _ h => by cases h
  exact ⟨rfl, rfl, (hnone.set hmem.1 _).set hmem.2 _⟩

theorem named_counting (locals : List String) : Named σ.names locals "cells" := by
  have hcells : (⟨⟨"cells", ⟨.int, true⟩⟩, none⟩ : GlobalDef) ∈ σ.program.globals := by
    rw [hσ]
    exact List.mem_cons_self ..
  exact .inr ⟨_, GlobalTable.get?_of_mem σ.compiled.globals_eq hcells⟩

/-- The function that counts can be called and has an activation. -/
theorem exists_activation_counting (locals : List String) :
    Nonempty σ.Activation ∧ σ.ExprReady locals (fun _ => True) (.call "next" []) := by
  obtain ⟨f, hf, hname, hassembly, hparameters⟩ :
      ∃ f ∈ σ.program.functions, f.name = "next" ∧ ¬ f.IsAssembly ∧ f.parameters = [] := by
    rw [hσ]
    exact ⟨_, List.mem_cons_self .., rfl, by simp [FunctionDef.IsAssembly], rfl⟩
  have hreachable : σ.program.Reachable "next" := by
    rw [hσ]
    exact .call (f := ⟨"spark", {}, [⟨"argc", .int⟩, ⟨"argv", ⟨.str, true⟩⟩], .int,
      .statements [.return_ (some (.call "next" []))]⟩) (by simp [counting, Program.functions])
      .entryPoint (by decide)
  obtain ⟨a, -⟩ := σ.exists_activation hf (hname ▸ hreachable) hassembly
  have hget := hname ▸ FunctionTable.get?_of_mem σ.compiled.functions_eq hf
  exact ⟨⟨a⟩, exprReady_call.2 ⟨⟨f, hf, hget, hname, hreachable, by simp [hparameters]⟩,
    List.forall_mem_nil _⟩⟩

/-- What the interpreter does with the functions of the program can be computed. -/
theorem eq_of_map_counting {α : Type} (f : FunctionTable → α) {a : α}
    (h : (FunctionTable.ofProgram counting).toOption.map f = some a) :
    f σ.names.functions = a := by
  rw [← hσ, σ.compiled.functions_eq] at h
  exact Option.some.inj h

theorem eval_counting : ∃ m, Interpreter.eval σ.names.functions 8 ∅
    (.index "cells" (.call "next" [])) countingMachine = (.ok 7, m) :=
  ⟨_, Prod.ext (eq_of_map_counting hσ (fun functions => (Interpreter.eval functions 8 ∅
    (.index "cells" (.call "next" [])) countingMachine).1) (by cbv)) rfl⟩

theorem variableOf_eval_counting : Interpreter.variableOf ∅
    (Interpreter.eval σ.names.functions 7 ∅ (.call "next" []) countingMachine).2 "cells" =
      some ⟨⟨.int, true⟩, 0⟩ :=
  eq_of_map_counting hσ (fun functions => Interpreter.variableOf ∅
    (Interpreter.eval functions 7 ∅ (.call "next" []) countingMachine).2 "cells") (by cbv)

theorem variableOf_evalBoth_counting : Interpreter.variableOf ∅ (Interpreter.evalBoth
    σ.names.functions 7 ∅ (.call "next" []) (.call "next" []) countingMachine).2 "cells" =
      some ⟨⟨.int, true⟩, 0⟩ :=
  eq_of_map_counting hσ (fun functions => Interpreter.variableOf ∅ (Interpreter.evalBoth functions
    7 ∅ (.call "next" []) (.call "next" []) countingMachine).2 "cells") (by cbv)

theorem execStmt_counting : ∃ result m, Interpreter.execStmt σ.names.functions 8 ∅
      (.assignIndexed "cells" (.call "next" []) (.call "next" [])) countingMachine =
      (.ok result, m) ∧
    m.heap.read 0 1 = .ok 2 := by
  have hboth := eq_of_map_counting hσ (fun functions =>
    let behind := Interpreter.execStmt functions 8 ∅
      (.assignIndexed "cells" (.call "next" []) (.call "next" [])) countingMachine
    (behind.1.toOption.isSome, behind.2.heap.read 0 1)) (a := (true, .ok 2)) (by cbv)
  obtain ⟨hdone, hheap⟩ := Prod.ext_iff.1 hboth
  obtain ⟨result, hresult⟩ := Fallible.exists_ok_of_isSome hdone
  exact ⟨result, _, Prod.ext hresult rfl, hheap⟩

end

/-- The code of `cells[next()]` pushes the element at index one, and the code of
`cells[next()] = next()` makes that element two. The operands change the count, but not the
array. -/
theorem indexedAccess_counting : ∃ (σ : Setting) (a : σ.Activation) (read written : State),
    σ.program = counting ∧ σ.StateAgrees countingMachine (countingState σ) ∧
    Reaches σ.image σ.header.unreachable
      (a.at_ (σ.naming []) (exprCode σ.names.functions (.index "cells" (.call "next" [])) ++ [])
        (fun _ => none) (countingState σ))
      (a.at_ (σ.naming []) [] (fun _ => none) read) ∧ read.stack = [7] ∧
    Reaches σ.image σ.header.unreachable
      (a.at_ (σ.naming []) (stmtCode σ.names.functions
        (.assignIndexed "cells" (.call "next" []) (.call "next" [])) 0 ++ []) (fun _ => none)
        (countingState σ))
      (a.at_ (σ.naming []) [] (fun _ => none) written) ∧ written.stack = [] ∧
    written.heap.read 0 1 = .ok 2 := by
  obtain ⟨σ, hσ⟩ := exists_counting
  have hconforming : σ.program.Conforming := hσ ▸ conforming_counting
  have hs := stateAgrees_counting hσ
  obtain ⟨⟨a⟩, hready⟩ := exists_activation_counting hσ (σ.naming []).locals
  have hsite : σ.Site a.scope (σ.naming []).locals :=
    a.site hconforming.separated (List.nil_append a.code).symm
  have hF : σ.FrameAgrees a.scope (fun _ => True) ∅ fun _ => none := fun _ _ h => by cases h
  have hE := (simulated hconforming.consistent 7).eval a
  obtain ⟨hreading, hwriting⟩ :=
    a.indexedAccess 7 0 [] (m := countingMachine) (s := countingState σ)
    (hsite.knows (named_counting hσ _) hF trivial) (.call "next" []) (.call "next" [])
  have hoperands : a.Computes (σ.naming []) (exprCode σ.names.functions (.call "next" []) ++
      exprCode σ.names.functions (.call "next" [])) [access .assignIndexed "cells"] (fun _ => none)
      (countingState σ) countingMachine
        (Interpreter.evalBoth σ.names.functions 7 ∅ (.call "next" [])
        (.call "next" [])) (fun p => [p.2, p.1]) := by
    unfold Activation.Computes
    rw [List.append_assoc]
    exact simulates_operands a hE _ hsite hF hs hready hready fun x y _ m' s' _ _ hstack hs' =>
      .pure (.refl _) ⟨s', rfl, hstack, hs'⟩
  have hreads := (hreading (hE _ _ hsite hready hF hs)).2.2 fun v x m' hv hx => by
    have hcells := variableOf_eval_counting hσ
    rw [hx] at hcells
    exact hcells.trans hv
  have hwrites := (hwriting hoperands).2.2 fun v p m' hv hp => by
    have hcells := variableOf_evalBoth_counting hσ
    rw [hp] at hcells
    exact hcells.trans hv
  obtain ⟨_, hvalue⟩ := eval_counting hσ
  obtain ⟨_, _, hresult, hheap⟩ := execStmt_counting hσ
  unfold Activation.Computes Simulates at hreads hwrites
  rw [hvalue] at hreads
  rw [hresult] at hwrites
  obtain ⟨_, hread, read, rfl, hreadStack, -⟩ := hreads
  obtain ⟨_, hwritten, written, rfl, hwrittenStack, hagrees⟩ := hwrites
  exact ⟨σ, a, read, written, hσ, hs, hread, hreadStack, hwritten, hwrittenStack,
    hagrees.heap ▸ hheap⟩

/-! ### An index that assigns to the variable -/

/-- A program that reads a bit of a global whose index is zero but clears the global. -/
def cleared : Program := ⟨[
  .global ⟨⟨"x", .int⟩, some (.number 1)⟩,
  .function ⟨"g", {}, [], .int,
    .statements [.assign "x" (.literal (.number 0)), .return_ (some (.literal (.number 0)))]⟩,
  .function ⟨"spark", {}, [⟨"argc", .int⟩, ⟨"argv", ⟨.str, true⟩⟩], .int,
    .statements [.return_ (some (.index "x" (.call "g" [])))]⟩]⟩

set_option maxRecDepth 4000 in
theorem execute_cleared :
    (cleared.image?.bind fun image => execute image 100 (.ofCapacity 4) []) = some (0, #[]) := by
  rw [Program.image?_of_statements (by decide) (by decide)
    (by simp [cleared, Program.functions, FunctionDef.IsAssembly])]
  cbv

/-- The interpreter reads the global before the index clears it, the stack machine reads it
afterwards. -/
theorem indexedAccess_cleared :
    (Interpreter.start cleared (.ofCapacity 4) {}).toOption.map (fun i => (i.run 20 []).1) =
    some (.ok 1) ∧
    (cleared.image?.bind fun image => execute image 100 (.ofCapacity 4) []) = some (0, #[]) := by
  refine ⟨?_, execute_cleared⟩
  cbv

end Firestorm.Setting
