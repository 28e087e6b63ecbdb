import Firestorm.Proofs.Bytecode.Execution

/-!
# The code of functions

The code of a function takes the arguments from the stack and leaves the value of the function
there. With the code of expressions and statements this closes the induction on the bound of the
interpreter.

Arguments are taken in reverse order, so that of several parameters with one name the first one
keeps its argument, while the interpreter keeps that of the last one.

## Main definitions

* `Setting.variableIn`, `Setting.Activation.entrySlots`, `Setting.Simulated`.

## Main results

* `Setting.Activation.reaches_body`, `Setting.simulated`.
* `Setting.callSimulated_succ`: the code of functions.
-/

namespace Firestorm

theorem Datatype.truncate_of_ne_chr {d : Datatype} (h : d ≠ .chr) (value : Word) :
    d.truncate value = value := by
  obtain ⟨kind, array⟩ := d
  cases kind <;> cases array
  case chr.false => exact absurd rfl h
  all_goals rfl

namespace Setting

open Bytecode StackMachine

variable {pairs : List (Binding × Word)} {name : String} {values : List Word} {s : State}

/-! ### Parameters and arguments -/

/-- The variable with the given name that the first of some pairs makes. -/
def variableIn (pairs : List (Binding × Word)) (name : String) : Option Variable :=
  (pairs.find? (·.1.name == name)).map fun p => .holding p.1.datatype p.2

theorem variableIn_cons (p : Binding × Word) (pairs : List (Binding × Word)) (name : String) :
    variableIn (p :: pairs) name =
      if p.1.name = name then some (.holding p.1.datatype p.2) else variableIn pairs name := by
  unfold variableIn
  by_cases h : p.1.name = name <;> simp [h]

theorem variableIn_append (pairs more : List (Binding × Word)) (name : String) :
    variableIn (pairs ++ more) name = (variableIn pairs name).or (variableIn more name) := by
  simp only [variableIn, List.find?_append, Option.map_or]

theorem variableIn_eq_none (h : name ∉ pairs.map (·.1.name)) : variableIn pairs name = none := by
  simp only [variableIn, Option.map_eq_none_iff, List.find?_eq_none, beq_iff_eq]
  rintro p hp rfl
  exact h (List.mem_map_of_mem hp)

theorem exists_of_variableIn {v : Variable} (h : variableIn pairs name = some v) :
    ∃ p ∈ pairs, p.1.name = name := by
  obtain ⟨p, hfind, -⟩ := Option.map_eq_some_iff.1 h
  exact ⟨p, List.mem_of_find?_eq_some hfind, by simpa using List.find?_some hfind⟩

/-- Where names are different, the last pair for a name is the first one. -/
theorem variableIn_reverse (h : (pairs.map (·.1.name)).Nodup) (name : String) :
    variableIn pairs.reverse name = variableIn pairs name := by
  induction pairs with
  | nil => rfl
  | cons p pairs ih =>
    obtain ⟨hp, hpairs⟩ := List.nodup_cons.1 h
    rw [List.reverse_cons, variableIn_append, ih hpairs, variableIn_cons, variableIn_cons]
    split
    · next hname =>
      rw [variableIn_eq_none (hname ▸ hp)]
      rfl
    · exact Option.or_none

/-- The frame in which further variables hold values. -/
def holdingAll (F : Firestorm.Frame) (pairs : List (Binding × Word)) : Firestorm.Frame :=
  pairs.foldl (fun F (b, value) => F.set b.name (.holding b.datatype value)) F

/-- A variable keeps the last value that it is given. -/
theorem get?_holdingAll (F : Firestorm.Frame) (pairs : List (Binding × Word)) (name : String) :
    (holdingAll F pairs).get? name = (variableIn pairs.reverse name).or (F.get? name) := by
  induction pairs generalizing F with
  | nil => rfl
  | cons p pairs ih =>
    have hstep : holdingAll F (p :: pairs) =
        holdingAll (F.set p.1.name (.holding p.1.datatype p.2)) pairs := rfl
    rw [hstep, ih, Table.get?_set, List.reverse_cons, variableIn_append, variableIn_cons,
      Option.or_assoc]
    by_cases hname : name = p.1.name
    · rw [if_pos hname, if_pos hname.symm, Option.some_or]
    · rw [if_neg hname, if_neg (Ne.symm hname)]
      rfl

/-- The variables of an activation in which further variables hold values. -/
def holdingSlots (scope : List String) (slots : Slots) (pairs : List (Binding × Word)) : Slots :=
  pairs.foldl (fun slots (b, value) => Function.update slots (localSlot scope b.name)
    (some (cellOf (.holding b.datatype value)))) slots

theorem holdingSlots_cons (scope : List String) (slots : Slots) (p : Binding × Word)
    (pairs : List (Binding × Word)) :
    holdingSlots scope slots (p :: pairs) = holdingSlots scope (Function.update slots
      (localSlot scope p.1.name) (some (cellOf (.holding p.1.datatype p.2)))) pairs := rfl

theorem holdingSlots_apply {scope : List String} (hlength : localSlotBase + scope.length ≤ 2 ^ 64)
    (hpairs : ∀ p ∈ pairs, p.1.name ∈ scope) (slots : Slots) (hname : name ∈ scope) :
    holdingSlots scope slots pairs (localSlot scope name) =
      ((variableIn pairs.reverse name).map cellOf).or (slots (localSlot scope name)) := by
  induction pairs generalizing slots with
  | nil => rfl
  | cons p pairs ih =>
    obtain ⟨hp, hpairs⟩ := List.forall_mem_cons.1 hpairs
    rw [holdingSlots_cons, ih hpairs, List.reverse_cons, variableIn_append, variableIn_cons,
      Option.map_or, Option.or_assoc]
    congr 1
    by_cases heq : p.1.name = name
    · subst heq
      rw [Function.update_self, if_pos rfl]
      rfl
    · rw [Function.update_of_ne fun h => heq (localSlot_inj hlength hname hp h).symm, if_neg heq]
      rfl

variable {σ : Setting} {fuel : Nat} (a : σ.Activation)

/-- The parameters take their values from the stack, the last one first. -/
theorem Activation.reaches_parameters {before more : List CodeLine} {bs : List Binding}
    {stack : List Word} (slots : Slots) (hcode : a.code = before ++ (parametersCode bs ++ more))
    (hlength : bs.length = values.length) (hstack : s.stack = values ++ stack) :
    σ.RunsTo
      (a.at_ (σ.naming before) (parametersCode bs ++ more) slots s)
      (a.at_ (σ.naming (before ++ parametersCode bs)) more
        (holdingSlots a.scope slots (bs.zip values)) { s with stack := stack }) := by
  induction bs generalizing before values slots s with
  | nil =>
    obtain rfl : values = [] := List.length_eq_zero_iff.1 hlength.symm
    obtain rfl : s.stack = stack := hstack
    refine .of_eq ?_
    rw [parametersCode, List.append_nil]
    rfl
  | cons b rest ih =>
    obtain ⟨value, values, rfl⟩ := List.exists_cons_of_length_eq_add_one hlength.symm
    have hvariable : a.code = before ++ .instruction (.variable_ b) ::
        (access .assign b.name :: (parametersCode rest ++ more)) := by
      rw [hcode, parametersCode]
      simp
    have hlocal : b.name ∈ (σ.naming (before ++ [.instruction (.variable_ b)])).locals := by
      rw [naming_variable]
      exact mem_insertName.2 (.inr rfl)
    have hplace := a.place_variable hvariable
    rw [← naming_variable] at hplace
    have hrest : a.code = (before ++ [.instruction (.variable_ b), access .assign b.name]) ++
        (parametersCode rest ++ more) := by
      rw [hvariable]
      simp
    have hnaming : σ.naming (before ++ [.instruction (.variable_ b), access .assign b.name]) =
        σ.naming (before ++ [.instruction (.variable_ b)]) := by
      simp [naming_append]
    refine (a.reaches_variable hvariable).trans
      (.trans (a.reaches_assign_declared hplace hlocal (Function.update_self ..) hstack) ?_)
    -- The place of the parameter first holds zero, then the value.
    rw [Function.update_idem]
    have hmore := ih (s := { s with stack := values ++ stack })
      (Function.update slots (localSlot a.scope b.name) (some (cellOf (.holding b.datatype value))))
      hrest (by simpa using hlength) rfl
    rw [hnaming, List.append_assoc] at hmore
    exact hmore

/-! ### The body of a function -/

/-- The code of a function in front of its parameters. -/
def Activation.mark : List CodeLine :=
  if a.function.attributes.noreturn then [plain .noreturn] else []

/-- The code of a function in front of its body. -/
def Activation.prologue : List CodeLine :=
  a.mark ++ parametersCode a.function.parameters.reverse

/-- The code of a function from its body on. -/
def Activation.rest : List CodeLine :=
  blockCode σ.names.functions a.body a.label ++ [number 0, plain .return_]

theorem Activation.code_eq : a.code = a.prologue ++ a.rest := by
  simp [code, functionCode, prologue, mark, rest]

theorem Activation.naming_prologue :
    (σ.naming a.prologue).locals = bindingsScope [] a.function.parameters.reverse := by
  unfold prologue mark
  split <;> simp [naming]

theorem Activation.parameter_mem_scope {b : Binding} (h : b ∈ a.function.parameters) :
    b.name ∈ a.scope := by
  refine (a.place a.code_eq).mem_scope ?_
  rw [a.naming_prologue, mem_bindingsScope]
  exact .inr ⟨b, List.mem_reverse.2 h, rfl⟩

/-- An activation starts in front of the code that takes the arguments. -/
theorem Activation.reaches_entry {address : UInt64}
    (haddress : σ.symbols.get? a.function.name = some address) :
    σ.RunsTo (.running (.entering σ.image address) s)
      (a.at_ (σ.naming a.mark) (parametersCode a.function.parameters.reverse ++ a.rest)
        (fun _ => none) s) := by
  obtain ⟨entry, hentry, hdrop⟩ := a.lies.entry
  obtain rfl : entry = address := Option.some_inj.1 (hentry.symm.trans haddress)
  rw [StackMachine.Frame.entering, hdrop]
  change Reaches _ _ (.running
    ⟨codeBytes σ.symbols a.function.name ⟨σ.globals, []⟩ a.code ++ a.tail,
    fun _ => none, false⟩ s) _
  rw [a.code_eq, prologue, mark, List.append_assoc, at_, frame]
  cases hnoreturn : a.function.attributes.noreturn with
  | false => exact .refl _
  | true =>
    refine .next ?_
    rw [if_pos rfl, List.singleton_append, plain,
      step_codeBytes (i := .plain .noreturn) (by simp)]
    rfl

/-- The variables of the machine when the body of a function starts. -/
def Activation.entrySlots (values : List Word) : Slots :=
  holdingSlots a.scope (fun _ => none) (a.function.parameters.zip values).reverse

/-- Each parameter holds its argument, the first of several with one name. -/
theorem Activation.entrySlots_apply (values : List Word) {b : Binding}
    (hb : b ∈ a.function.parameters) :
    a.entrySlots values (localSlot a.scope b.name) =
      (variableIn (a.function.parameters.zip values) b.name).map cellOf := by
  have hpairs : ∀ p ∈ (a.function.parameters.zip values).reverse, p.1.name ∈ a.scope := fun p hp =>
    a.parameter_mem_scope (List.of_mem_zip (List.mem_reverse.1 hp)).1
  rw [entrySlots, holdingSlots_apply a.length_scope hpairs _ (a.parameter_mem_scope hb),
    List.reverse_reverse, Option.or_none]

theorem get?_enter (parameters : List Binding) (values : List Word) (name : String) :
    (Interpreter.enter parameters values).get? name =
    variableIn (parameters.zip values).reverse name :=
  (get?_holdingAll ∅ _ name).trans Option.or_none

/-- When the body starts, the parameters have been taken from the stack. -/
theorem Activation.reaches_body {address : UInt64} {stack : List Word}
    (haddress : σ.symbols.get? a.function.name = some address)
    (hlength : a.function.parameters.length = values.length)
    (hstack : s.stack = values.reverse ++ stack) : σ.RunsTo (.running (.entering σ.image address) s)
      (a.at_ (σ.naming a.prologue) a.rest (a.entrySlots values) { s with stack := stack }) := by
  have hcode : a.code = a.mark ++ (parametersCode a.function.parameters.reverse ++ a.rest) := by
    rw [a.code_eq, prologue, List.append_assoc]
  have hparameters := a.reaches_parameters (fun _ => none) hcode (by simpa using hlength) hstack
  rw [entrySlots, List.zip, List.reverse_zipWith hlength]
  exact (a.reaches_entry haddress).trans hparameters

/-- The variables of the machine are those of the interpreter when the body starts. -/
theorem Activation.frameAgrees_enter (hσ : σ.program.Consistent)
    (hlength : a.function.parameters.length = values.length) :
    σ.FrameAgrees a.scope (fun _ => True) (Interpreter.enter a.function.parameters values)
      (a.entrySlots values) := by
  intro name v hv
  have hnodup := hσ.parameters_nodup _ a.mem
  rw [← Interpreter.map_fst_name_zip hlength] at hnodup
  rw [get?_enter, variableIn_reverse hnodup] at hv
  obtain ⟨p, hp, rfl⟩ := exists_of_variableIn hv
  have hb := (List.of_mem_zip hp).1
  refine ⟨a.notMem_globals hσ.separated (a.parameter_mem_scope hb), a.parameter_mem_scope hb,
    fun _ => ?_⟩
  rw [a.entrySlots_apply values hb, hv]
  rfl

theorem callSimulated_succ (hσ : σ.program.Consistent) (hB : ∀ body, a.BlockSimulated fuel body) :
    a.CallSimulated (fuel + 1) := by
  intro address arguments m s stack haddress hstack hs
  rw [Interpreter.call]
  split
  · exact .fault _
  · next hlength =>
    split
    · exact .fault _
    · simp only [a.body_eq]
      have hlength : a.function.parameters.length = (arguments.map Prod.snd).length := by
        simpa using hlength
      refine .of_reaches (a.reaches_body haddress hlength hstack) ?_
      have hscoped : BlockScoped σ.names (σ.naming a.prologue).locals a.body := by
        rw [a.naming_prologue]
        exact σ.compiled.inScope _ a.mem a.body a.body_eq
      refine (hB a.body _ a.code_eq hscoped
        (by simp [FunctionDef.statements, a.body_eq, Body.block])
        (a.frameAgrees_enter hσ hlength) (hs.withStack stack)).bind ?_
      rintro ⟨F, result⟩ m' c hexecuted
      cases hnoreturn : a.function.attributes.noreturn with
      | true => exact .fault _
      | false =>
        cases result with
        | none =>
          obtain ⟨slots, -, s', rfl, hstack', hs'⟩ := hexecuted
          obtain ⟨c, hc, hreturned⟩ := a.reaches_return _ [] slots rfl (hs'.push 0)
          exact .pure ((a.reaches_number 0).trans hc) (by simpa [hstack'] using hreturned hnoreturn)
        | some value =>
          have hreturns := hσ.returns _ a.mem (FunctionDef.not_isAssembly_iff.2 ⟨_, a.body_eq⟩)
          refine .pure (.refl c) ?_
          rw [Option.map_some, Option.getD_some, Datatype.truncate_of_ne_chr hreturns]
          exact hexecuted hnoreturn

/-! ### The induction on the bound -/

/-- The machine does what the interpreter does as far as the bound goes. -/
structure Simulated (σ : Setting) (fuel : Nat) : Prop where
  eval : ∀ (a : σ.Activation) e, a.EvalSimulated fuel e
  arguments : ∀ (a : σ.Activation) es, a.ArgumentsSimulated fuel es
  call : ∀ a : σ.Activation, a.CallSimulated fuel
  stmt : ∀ (a : σ.Activation) st, a.StmtSimulated fuel st
  block : ∀ (a : σ.Activation) body, a.BlockSimulated fuel body

theorem simulated_zero : σ.Simulated 0 where
  eval a e := by
    intro k P F m slots s more hsite hready hF hs
    rw [Interpreter.eval]
    exact .outOfFuel
  arguments a es := by
    intro k P F m slots s more hsite hready hF hs
    rw [Interpreter.evalArguments]
    exact .outOfFuel
  call a := by
    intro address arguments m s stack haddress hstack hs
    rw [Interpreter.call]
    exact .outOfFuel
  stmt a st := by
    intro before n F m slots s more hcode hscoped hst hF hs
    rw [Interpreter.execStmt]
    exact .outOfFuel
  block a body := by
    intro before n F m slots s more hcode hscoped hst hF hs
    rw [Interpreter.execBlock]
    exact .outOfFuel

/-- The machine simulates the interpreter, whatever the bound of the interpreter is. -/
theorem simulated (hσ : σ.program.Consistent) (fuel : Nat) : σ.Simulated fuel := by
  induction fuel with
  | zero => exact simulated_zero
  | succ fuel ih =>
    exact {
      eval := fun a e => evalSimulated_succ a hσ (ih.eval a) (ih.arguments a) ih.call e
      arguments := fun a es => argumentsSimulated_succ a (ih.eval a) (ih.arguments a) es
      call := fun a => callSimulated_succ a hσ (ih.block a)
      stmt := fun a st => stmtSimulated_succ a hσ (ih.eval a) (ih.block a) (ih.stmt a) st
      block := fun a body => blockSimulated_succ a (ih.block a) (ih.stmt a) body }

end Setting

end Firestorm
