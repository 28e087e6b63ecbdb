import Firestorm.Proofs.Bytecode.Checking
import Firestorm.Proofs.Resolution

/-!
# Runs of checked programs

A program that passes the checks of a code generator can still read a variable before its
declaration has been executed, but no run of it fails because of a name in any other way: the frame
of a call holds every variable with the datatype of its declarations, and every call that is
evaluated has been checked. The only call that no one has checked is that of the entry point itself.

## Main definitions

* `Interpreter.Typed`, `Interpreter.Task.Checked`.

## Main results

* `Interpreter.Task.Checked.undefined`, `Interpreter.foldlM_defineGlobal`.
* `Interpreter.Task.Checked.next`: a checked task hands on checked tasks.
* `Program.symbolFaults_of_toBytecode`: the errors of names of all runs.
-/

namespace Firestorm

open Checks Fallible

namespace Interpreter

variable {heap : Heap}

/-- The error says that a variable is missing. -/
def IsUndefined (e : SymbolError) : Prop := ∃ name, e = .undefined name

/-! ### Frames -/

/-- The variables of a frame are locals of a function, with the datatypes of their declarations. -/
def Typed (f : FunctionDef) (F : Frame) : Prop :=
  ∀ name v, F.get? name = some v → ⟨name, v.datatype⟩ ∈ f.locals

section

variable {f : FunctionDef} {F : Frame}

theorem Typed.set (hF : Typed f F) {b : Binding} (hb : b ∈ f.locals) (value : Word) :
    Typed f (F.set b.name (.holding b.datatype value)) := by
  intro name v hv
  rw [Table.get?_set] at hv
  split at hv
  · next hname =>
    cases hv
    rw [hname]
    exact hb
  · exact hF name v hv

theorem typed_enter (f : FunctionDef) (values : List Word) :
    Typed f (enter f.parameters values) := by
  have hfold : ∀ (pairs : List (Binding × Word)) (F : Frame), Typed f F →
      (∀ pair ∈ pairs, pair.1 ∈ f.locals) →
      Typed f (pairs.foldl (fun F pair => F.set pair.1.name (.holding pair.1.datatype pair.2))
        F) := by
    intro pairs
    induction pairs with
    | nil => exact fun F hF _ => hF
    | cons pair pairs ih =>
      intro F hF hpairs
      obtain ⟨hpair, hpairs⟩ := List.forall_mem_cons.1 hpairs
      exact ih _ (hF.set hpair pair.2) hpairs
  refine hfold _ ∅ (fun name v hv => ?_) fun pair hpair => ?_
  · simp at hv
  · exact List.mem_append_left _ (List.of_mem_zip hpair).1

theorem Typed.updated {F' : Frame} {parts : List Stmt} (hF : Typed f F) (h : Updated parts F F')
    (hparts : parts ⊆ f.statements) : Typed f F' := by
  intro name v hv
  rcases h.datatypes name v hv with ⟨w, hw, hd⟩ | ⟨init, hinit⟩
  · exact hd ▸ hF name w hw
  · exact List.mem_append_right _ (List.mem_filterMap.2 ⟨_, hparts hinit, rfl⟩)

end

/-! ### The work on a checked function -/

section

variable (p : Program) (functions : FunctionTable)

/-- A task stands in a checked function, whose variables have the datatypes of their declarations,
or it is a call that fits. -/
def Task.Checked : Task → Prop
  | call f values => f ∈ p.functions ∧ f.parameters.length = values.length
  | t =>
    ∃ f : FunctionDef, f.Checked functions ∧ t.expressions ⊆ f.expressions ∧
      t.statements ⊆ f.statements ∧ Typed f t.frame

end

variable {p : Program} {functions : FunctionTable} {u v : Visit}

/-- A checked task that stops because of a name misses a variable. -/
theorem Task.Checked.undefined (hu : u.task.Checked p functions) {e : SymbolError}
    (h : Raises functions u (.fault (.symbol e))) : ∃ name, e = .undefined name := by
  cases h with
  | missing => exact ⟨_, rfl⟩
  | unresolved he =>
    obtain ⟨f, hf, hparts, -⟩ := hu
    obtain ⟨g, hg⟩ := hf.fits _ (hparts (List.mem_cons_self ..)) _ _ rfl
    cases hg.symm.trans he
  | unresolvedArgument he =>
    obtain ⟨f, hf, hparts, -⟩ := hu
    obtain ⟨g, hg⟩ := hf.fits _ (hparts (List.mem_append_left _ (List.mem_cons_self ..))) _ _ rfl
    cases hg.symm.trans he
  | arity hlength => exact absurd hu.2 hlength
  | @redefined n scope F b init m hd =>
    obtain ⟨f, hf, -, hparts, hF⟩ := hu
    have hb : b ∈ f.locals :=
      List.mem_append_right _ (List.mem_filterMap.2 ⟨_, hparts (List.mem_singleton_self _), rfl⟩)
    -- The frame has the name with the datatype of another declaration of the function.
    exact absurd (fun v hv => hf.datatypes _ (hF b.name v hv) b hb rfl) hd
  | other h => exact absurd rfl (h _)

section

variable (hfunctions : FunctionTable.ofProgram p = .ok functions)
  (hchecked : ∀ f ∈ p.functions, ∀ body, f.body = .statements body → f.Checked functions)
include hfunctions hchecked

theorem Task.Checked.next (hv : v.task.Checked p functions) (h : Comes functions v u) :
    u.task.Checked p functions := by
  have hsubset := h.subset
  have hupdated := h.updated
  cases h with
  | @call n scope F callee es m f values m' hf hvalues =>
    have harguments : Works functions ⟨n, .arguments scope F es, m⟩
        _ (evalArguments functions n F es) m :=
      orderly functions ⟨n, .arguments scope F es, m⟩
    obtain ⟨hget, hlength⟩ := FunctionTable.resolve_eq_ok.1 hf
    exact ⟨(FunctionTable.mem_of_get? hfunctions hget).1,
      hlength.trans (harguments.value hvalues).symm⟩
  | @body n f arguments body m hlength hcheck hbody =>
    refine ⟨f, hchecked f hv.1 body hbody, ?_, ?_, typed_enter f _⟩
    · rw [FunctionDef.expressions, hbody]
      exact List.Subset.refl _
    · rw [FunctionDef.statements, hbody]
      exact List.Subset.refl _
  | _ =>
    obtain ⟨f, hf, hexpressions, hstatements, hF⟩ := hv
    obtain ⟨hexpressions', hstatements'⟩ := hsubset rfl rfl
    exact ⟨f, hf, List.Subset.trans hexpressions' hexpressions,
      List.Subset.trans hstatements' hstatements, hF.updated (hupdated rfl rfl) hstatements⟩

theorem visited_checked (h : Relation.ReflTransGen (Comes functions) v u)
    (hv : v.task.Checked p functions) : u.task.Checked p functions := by
  induction h with
  | refl => exact hv
  | tail _ hcomes ih => exact ih.next hfunctions hchecked hcomes

/-- The errors of names of a call of the entry point. -/
def EntryFault (p : Program) (e : SymbolError) : Prop :=
  IsUndefined e ∨ ∃ f ∈ p.functions, f.name = Program.entryPoint ∧ f.parameters.length ≠ 2 ∧
    e = .arity Program.entryPoint f.parameters.length 2

/-- An error of names that ends a run is one of these. -/
theorem entryFault_of_run {i : Interpreter} (hi : i.functions = functions) {fuel : Nat}
    {arguments : List String} {e : SymbolError}
    (h : (i.run fuel arguments).1 = .error (.fault (.symbol e))) : EntryFault p e := by
  obtain ⟨u, ⟨f, argv, m₁, m₂, hf, -, -, hcomes⟩, hraises⟩ :=
    (through_callEntryPoint i fuel arguments).error (Prod.ext h rfl) _ rfl
  rw [hi] at hf hcomes hraises
  obtain ⟨hmem, hname⟩ := FunctionTable.mem_of_get? hfunctions hf
  by_cases hlength : f.parameters.length = 2
  · exact .inl ((visited_checked hfunctions hchecked hcomes ⟨hmem, hlength⟩).undefined hraises)
  -- A call that does not fit comes to nothing else.
  rcases hcomes.cases_head with rfl | ⟨w, hbody, -⟩
  · cases hraises with
    | missing haccess => cases haccess
    | arity => exact .inr ⟨f, hmem, hname, hlength, by rw [hname]; rfl⟩
    | other h => exact absurd rfl (h _)
  · cases hbody with
    | body h => exact absurd h hlength

end

/-! ### Globals -/

/-- The globals of a run have the datatypes of a table. -/
def HasDatatypes (globals : GlobalTable) (m : Machine) : Prop :=
  ∀ name, (m.globals.get? name).map Variable.datatype = globals.get? name

section

variable {globals globals' : GlobalTable} {m : Machine}

theorem initialValue_eq_error {g : GlobalDef} {fault : Fault}
    (h : initialValue heap g = .error fault) : ∃ e, fault = .heap e := by
  unfold initialValue at h
  cases hinit : g.init with
  | none => simp [hinit] at h
  | some l =>
    simp only [hinit] at h
    cases hl : heap.literal l with
    | error e =>
      rw [hl] at h
      cases h
      exact ⟨e, rfl⟩
    | ok result =>
      rw [hl] at h
      cases h

/-- A definition that has passed the checks gets its initial value if there is room for it. -/
theorem defineGlobal_of_define {g : GlobalDef} (h : globals.define g = .ok globals')
    (hm : HasDatatypes globals m) :
    (∃ m', defineGlobal m g = .ok m' ∧ HasDatatypes globals' m') ∨
      ∃ e, defineGlobal m g = .error (.heap e) := by
  obtain ⟨hself, hother, hsame⟩ := GlobalTable.define_eq_ok h
  obtain ⟨_, hcheck, -⟩ := except_bind_eq_ok.1 h
  cases hvalue : initialValue m.heap g with
  | error fault =>
    obtain ⟨e, rfl⟩ := initialValue_eq_error hvalue
    refine .inr ⟨e, ?_⟩
    unfold defineGlobal
    rw [hcheck, hvalue]
    rfl
  | ok result =>
    obtain ⟨value, heap⟩ := result
    have hdatatype : ∀ v, m.globals.get? g.binding.name = some v →
        v.datatype = g.binding.datatype := by
      intro v hv
      refine hsame _ ?_
      rw [← hm, hv, Option.map_some]
    refine .inl ⟨_, defineGlobal_eq_ok.2 ⟨hcheck, value, heap, hvalue, hdatatype, rfl⟩,
      fun name => ?_⟩
    rw [Table.get?_set]
    by_cases hname : name = g.binding.name
    · rw [if_pos hname, hname, hself]
      rfl
    · rw [if_neg hname, hother name hname]
      exact hm name

/-- Definitions that have passed the checks get their initial values as long as there is room for
them. -/
theorem foldlM_defineGlobal {gs : List GlobalDef} {fault : Fault}
    (h : gs.foldlM GlobalTable.define globals = .ok globals') (hm : HasDatatypes globals m)
    (hfault : gs.foldlM defineGlobal m = .error fault) : ∃ e, fault = .heap e := by
  induction gs generalizing globals m with
  | nil => cases hfault
  | cons g gs ih =>
    rw [List.foldlM_cons, except_bind_eq_ok] at h
    obtain ⟨globals₁, hg, hgs⟩ := h
    rw [List.foldlM_cons] at hfault
    rcases defineGlobal_of_define hg hm with ⟨m₁, hdefine, hm₁⟩ | ⟨e, hdefine⟩
    · rw [hdefine] at hfault
      exact ih hgs hm₁ hfault
    · rw [hdefine] at hfault
      cases hfault
      exact ⟨e, rfl⟩

end

theorem start_eq_error {p : Program} {globals : GlobalTable} {functions : FunctionTable}
    (hglobals : GlobalTable.ofProgram p = .ok globals)
    (hfunctions : FunctionTable.ofProgram p = .ok functions) {output : Output} {fault : Fault}
    (h : start p heap output = .error fault) : ∃ e, fault = .heap e := by
  unfold start at h
  rw [hfunctions] at h
  change (p.globals.foldlM defineGlobal { heap, output } >>= _) = _ at h
  cases hfold : p.globals.foldlM defineGlobal { heap, output } with
  | ok m =>
    rw [hfold] at h
    cases h
  | error fault' =>
    rw [hfold] at h
    cases h
    exact foldlM_defineGlobal hglobals (fun _ => rfl) hfold

theorem functions_of_start {p : Program} {functions : FunctionTable}
    (hfunctions : FunctionTable.ofProgram p = .ok functions) {output : Output} {i₀ i : Interpreter}
    (hstart : start p heap output = .ok i₀) (hruns : Relation.ReflTransGen Follows i₀ i) :
    i.functions = functions := by
  induction hruns with
  | refl =>
    simp only [start, except_bind_eq_ok, mapError_eq_ok] at hstart
    obtain ⟨functions', hfunctions', m, -, hi⟩ := hstart
    cases hi
    exact Except.ok.inj (hfunctions'.symm.trans hfunctions)
  | tail _ hfollows ih =>
    obtain ⟨fuel, arguments, rfl⟩ := hfollows
    exact ih

end Interpreter

/-- A program with bytecode cannot be started only for lack of memory. Whatever runs there were
before, with whatever arguments and whatever bound, an error of names that ends a run says that a
variable is missing, or that the entry point does not take the two arguments of a run; every call
that is written in the program fits the function that the run finds. -/
theorem Program.symbolFaults_of_toBytecode {p : Program} {sections : List Section}
    (h : p.toBytecode = .ok sections) (heap : Heap) (output : Output) :
    (∀ fault, Interpreter.start p heap output = .error fault → ∃ e, fault = .heap e) ∧
    ∀ i₀ i, Interpreter.start p heap output = .ok i₀ →
      Relation.ReflTransGen Interpreter.Follows i₀ i →
      (∀ fuel arguments e, (i.run fuel arguments).1 = .error (.fault (.symbol e)) →
        (∃ name, e = .undefined name) ∨
        ∃ f ∈ p.functions, f.name = Program.entryPoint ∧ f.parameters.length ≠ 2 ∧
          e = .arity Program.entryPoint f.parameters.length 2) ∧
      ∀ f ∈ p.functions, ∀ callee es, .call callee es ∈ f.expressions →
        ∃ g, i.functions.resolve callee es.length = .ok g := by
  obtain ⟨globals, functions, hglobals, hfunctions, hchecked⟩ := p.checked_of_toBytecode h
  refine ⟨fun fault => Interpreter.start_eq_error hglobals hfunctions, fun i₀ i hstart hruns => ?_⟩
  have hi := Interpreter.functions_of_start hfunctions hstart hruns
  refine ⟨fun fuel arguments e hrun => ?_, fun f hf callee es hcall => ?_⟩
  · exact Interpreter.entryFault_of_run hfunctions hchecked hi hrun
  · rw [hi]
    cases hbody : f.body with
    | assembly text =>
      rw [FunctionDef.expressions, hbody] at hcall
      cases hcall
    | statements body => exact (hchecked f hf body hbody).fits _ hcall callee es rfl

/-- A variable is missing in the first run, and no other error of names can end a second one. -/
theorem Program.symbolFaults_of_toBytecode_selfInitial :
    ∃ i, Interpreter.start selfInitial (.ofCapacity 4) {} = .ok i ∧
      (i.run 20 []).1 = .error (.fault (.symbol (.undefined "y"))) ∧
      ∀ fuel arguments e, ((i.run 20 []).2.run fuel arguments).1 = .error (.fault (.symbol e)) →
        (∃ name, e = .undefined name) ∨
        ∃ f ∈ selfInitial.functions, f.name = Program.entryPoint ∧ f.parameters.length ≠ 2 ∧
          e = .arity Program.entryPoint f.parameters.length 2 := by
  have hrun : (Interpreter.start selfInitial (.ofCapacity 4) {}).toOption.map
      (fun i => (i.run 20 []).1) = some (.error (.fault (.symbol (.undefined "y")))) := by cbv
  have hbytecode : selfInitial.toBytecode.toOption.isSome = true := by cbv
  obtain ⟨i, hstart, hresult⟩ := exists_ok_of_map hrun
  obtain ⟨sections, hsections⟩ := exists_ok_of_isSome hbytecode
  have hfollows : Interpreter.Follows i (i.run 20 []).2 := ⟨20, [], rfl⟩
  have hfaults := Program.symbolFaults_of_toBytecode hsections (.ofCapacity 4) {}
  exact ⟨i, hstart, hresult, (hfaults.2 i _ hstart (.single hfollows)).1⟩

end Firestorm
