import Firestorm.Native.Generate
import Firestorm.Proofs.Symbols.Checks

/-!
# The checks of the generator of native code

The generator of native code makes the checks of the names of a program, in the order of the text.
It declares the parameters of a function from the first to the last. Beside these checks it fails if
there are not enough registers, and behind all of them if a global of characters starts as a string.

## Main results

* `Native.matches_functionUnits`, `Native.globalData_eq_error`.
* `Native.tracks_expr`, `Native.tracks_block`: the checks of the parts of a function.
-/

namespace Firestorm.Native

open Checks

/-- The datatypes of the locals declared so far. -/
def GenerateState.datatypes (s : GenerateState) : Locals := s.layout.datatypes

/-- The error says that there are not enough registers. -/
def IsExhausted (e : CompileError) : Prop := ∃ n, e = .registersExhausted n

/-- Generation fails where a check fails, or for lack of registers. -/
abbrev Generate.Makes {α β : Type} (x : Generate α) (y : Check β) : Prop :=
  Tracks IsExhausted GenerateState.datatypes (fun _ _ => True) x y

section

variable {c : Convention} {N : Names} {function : String}

theorem tracks_freshLabel : Generate.Makes (freshLabel function) (pure ()) :=
  fun _ => .pure ⟨trivial, rfl⟩

theorem tracks_noteCallee (name : String) : Generate.Makes (noteCallee name) (pure ()) :=
  fun _ => .pure ⟨trivial, rfl⟩

theorem tracks_intern (content : String) : Generate.Makes (intern content) (pure ()) :=
  fun _ => .pure ⟨trivial, rfl⟩

theorem tracks_exhausted {α β : Type} {y : Check β} (n : Nat) :
    Generate.Makes (throw (.registersExhausted n) : Generate α) y :=
  fun _ => .exempted ⟨n, rfl⟩

theorem tracks_register (index : Nat) : Generate.Makes (register c index) (pure ()) := by
  unfold register
  split
  · exact .pure trivial
  · exact tracks_exhausted _

theorem tracks_declareLocal (b : Binding) : Generate.Makes (declareLocal b) (Checks.declare b) := by
  intro s
  have hdeclare : declareLocal b s = ((s.layout.declare b).mapError CompileError.symbol >>= fun r =>
      .ok (r.1, { s with layout := r.2 })) := by
    change (ofSymbols (s.layout.declare b) >>= fun r => do
      modify fun s => { s with layout := r.2 }
      return r.1) s = _
    cases s.layout.declare b <;> rfl
  rw [hdeclare, ← bind_pure (Checks.declare b s.datatypes)]
  exact (s.layout.declare_matches _ b).bind fun r r' h => .pure ⟨trivial, h⟩

theorem tracks_variableOf (name : String) :
    Tracks IsExhausted GenerateState.datatypes (fun v d => v.datatype = d) (variableOf N name)
      (datatype N.globals name) := by
  intro s
  unfold variableOf GenerateState.datatypes
  rw [Fallible.get_bind]
  cases hslot : s.layout.get? name with
  | some slot =>
    rw [datatype_of_slot hslot]
    exact .pure ⟨rfl, rfl⟩
  | none =>
    cases hglobal : N.globals.get? name with
    | some d =>
      rw [datatype_of_global hslot hglobal]
      exact .pure ⟨rfl, rfl⟩
    | none =>
      rw [datatype_of_none hslot hglobal]
      exact .throw _

theorem tracks_resolve (callee : String) (arguments : Nat) :
    Generate.Makes (ofSymbols (N.functions.resolve callee arguments))
      (Checks.callee N.functions callee arguments) := by
  intro s
  unfold Checks.callee
  cases N.functions.resolve callee arguments with
  | ok f => exact .pure ⟨trivial, rfl⟩
  | error e => exact .throw _

mutual

theorem tracks_expr : ∀ (e : Expr) (target : Nat),
    Generate.Makes (expr c N function e target) (Checks.expr N.globals N.functions e)
  | .literal (.number _), target | .literal (.chr _), target => by
    rw [expr, Checks.expr]
    exact (tracks_register target).finish _
  | .literal (.str content), target => by
    rw [expr, Checks.expr]
    exact (tracks_register target).silent_bind fun _ => (tracks_intern content).finish _
  | .lookup name, target => by
    rw [expr, Checks.expr]
    exact (tracks_register target).silent_bind fun _ => (tracks_variableOf name).forget.finish _
  | .index name i, target => by
    rw [expr, Checks.expr]
    refine (tracks_register target).silent_bind fun _ => ?_
    refine (tracks_variableOf name).forget.bind fun v _ _ => ?_
    rw [← bind_pure (Checks.expr N.globals N.functions i)]
    refine (tracks_expr i (target + 1)).bind fun code _ _ => ?_
    refine (tracks_register (target + 1)).silent_bind fun _ => ?_
    split
    · exact .pure trivial
    · exact (tracks_register (target + 2)).finish _
  | .call callee arguments, target => by
    rw [expr, Checks.expr]
    refine (tracks_register target).silent_bind fun _ => ?_
    refine (tracks_resolve callee arguments.length).bind fun f _ _ => ?_
    refine (tracks_noteCallee f.name).silent_bind fun _ => ?_
    by_cases hmany : arguments.length > c.registers
    · simp only [hmany, if_true]
      exact fun _ => .exempted ⟨c.registers, rfl⟩
    · simp only [hmany, if_false]
      exact (tracks_exprs arguments 0).finish _
  | .binary op left right, target => by
    rw [expr, Checks.expr]
    refine (tracks_register target).silent_bind fun _ => ?_
    refine (tracks_expr left target).bind fun a _ _ => ?_
    rw [← bind_pure (Checks.expr N.globals N.functions right)]
    exact (tracks_expr right (target + 1)).bind fun b _ _ => (tracks_register (target + 1)).finish _
  | .compare op left right, target => by
    rw [expr, Checks.expr]
    refine (tracks_register target).silent_bind fun _ => ?_
    refine (tracks_expr left target).bind fun a _ _ => ?_
    rw [← bind_pure (Checks.expr N.globals N.functions right)]
    exact (tracks_expr right (target + 1)).bind fun b _ _ =>
      (tracks_register (target + 1)).silent_bind
      fun _ => (tracks_register (target + 2)).silent_bind fun _ => tracks_freshLabel.finish _
  | .unary _ operand, target | .not operand, target => by
    rw [expr, Checks.expr]
    exact (tracks_register target).silent_bind fun _ => (tracks_expr operand target).finish _

theorem tracks_exprs : ∀ (es : List Expr) (target : Nat),
    Generate.Makes (exprs c N function es target) (Checks.exprs N.globals N.functions es)
  | [], target => by
    rw [exprs, Checks.exprs]
    exact .pure trivial
  | e :: rest, target => by
    rw [exprs, Checks.exprs]
    exact (tracks_expr e target).bind fun _ _ _ => (tracks_exprs rest (target + 1)).finish _

end

mutual

theorem tracks_stmt : ∀ st : Stmt,
    Generate.Makes (stmt c N function st) (Checks.stmt N.globals N.functions st)
  | .declare b none => by
    rw [stmt, Checks.stmt]
    exact (tracks_declareLocal b).finish _
  | .declare b (some e) => by
    rw [stmt, Checks.stmt]
    exact (tracks_declareLocal b).bind fun _ _ _ => (tracks_expr e 0).finish _
  | .assign target value => by
    rw [stmt, Checks.stmt]
    exact (tracks_variableOf target).forget.bind fun _ _ _ => (tracks_expr value 0).finish _
  | .assignIndexed target i value => by
    rw [stmt, Checks.stmt]
    refine (tracks_variableOf target).bind fun v d hd => ?_
    subst hd
    refine Tracks.guard ((tracks_expr i 0).bind fun _ _ _ => ?_)
    rw [← bind_pure (Checks.expr N.globals N.functions value)]
    exact (tracks_expr value 1).bind fun _ _ _ => (tracks_register 1).silent_bind fun _ =>
      (tracks_register 2).finish _
  | .increment target | .decrement target => by
    rw [stmt, Checks.stmt]
    exact (tracks_variableOf target).forget.finish _
  | .return_ none => by
    rw [stmt, Checks.stmt]
    exact .pure trivial
  | .return_ (some e) => by
    rw [stmt, Checks.stmt]
    exact (tracks_expr e 0).finish _
  | .ifThen condition body => by
    rw [stmt, Checks.stmt]
    exact tracks_freshLabel.silent_bind fun _ => (tracks_expr condition 0).bind fun _ _ _ =>
      (tracks_block body).finish _
  | .ifElse condition body otherwise => by
    rw [stmt, Checks.stmt]
    exact tracks_freshLabel.silent_bind fun _ => (tracks_expr condition 0).bind fun _ _ _ =>
      (tracks_block body).bind fun _ _ _ => tracks_freshLabel.silent_bind fun _ =>
      (tracks_block otherwise).finish _
  | .while_ condition body => by
    rw [stmt, Checks.stmt]
    exact tracks_freshLabel.silent_bind fun _ => tracks_freshLabel.silent_bind fun _ =>
      (tracks_expr condition 0).bind fun _ _ _ => (tracks_block body).finish _
  | .doWhile body condition => by
    rw [stmt, Checks.stmt]
    exact tracks_freshLabel.silent_bind fun _ => (tracks_block body).bind fun _ _ _ =>
      (tracks_expr condition 0).finish _
  | .loop body => by
    rw [stmt, Checks.stmt]
    exact tracks_freshLabel.silent_bind fun _ => (tracks_block body).finish _
  | .expr e => by
    rw [stmt, Checks.stmt]
    exact tracks_expr e 0

theorem tracks_block : ∀ body : List Stmt,
    Generate.Makes (block c N function body) (Checks.block N.globals N.functions body)
  | [] => by
    rw [block, Checks.block]
    exact .pure trivial
  | st :: rest => by
    rw [block, Checks.block]
    exact (tracks_stmt st).bind fun _ _ _ => (tracks_block rest).finish _

end

theorem tracks_parameters : ∀ (bs : List Binding) (index : Nat),
    Generate.Makes (parameters c bs index) (declareAll bs)
  | [], index => by
    rw [parameters, declareAll]
    exact .pure trivial
  | b :: rest, index => by
    rw [parameters, declareAll]
    exact (tracks_declareLocal b).bind fun _ _ _ => (tracks_register index).silent_bind fun _ =>
      (tracks_parameters rest (index + 1)).finish _

theorem tracks_functionBody (f : FunctionDef) (body : List Stmt) :
    Generate.Makes (functionBody c N f body)
      (Checks.function N.globals N.functions f.parameters body) := by
  unfold functionBody Checks.function
  refine (tracks_parameters f.parameters 0).bind fun _ _ _ => ?_
  rw [← bind_pure (Checks.block N.globals N.functions body)]
  refine (tracks_block body).bind fun _ _ _ => ?_
  have hget : Generate.Makes (get : Generate GenerateState) (pure ()) :=
    fun _ => .pure ⟨trivial, rfl⟩
  split
  · exact (tracks_noteCallee _).silent_bind fun _ => hget.finish _
  · exact hget.finish _

/-- The units of functions are generated if the functions pass the checks, or fail for lack of
registers. -/
theorem matches_functionUnits (n : Nat) (strings : List String) (fs : List FunctionDef) :
    Matches IsExhausted (fun _ _ => True) (functionUnits c N n strings fs)
      (Checks.program N.globals N.functions id fs) := by
  induction fs generalizing n strings with
  | nil => exact .pure trivial
  | cons f rest ih =>
    cases hbody : f.body with
    | assembly text =>
      simp only [functionUnits, functionUnit, Checks.program, hbody]
      exact (ih _ _).finish _
    | statements body =>
      simp only [functionUnits, Checks.program, hbody]
      have hunit : Matches IsExhausted (fun _ _ => True) (functionUnit c N n strings f)
          (Checks.function N.globals N.functions f.parameters body fun _ => none) := by
        simp only [functionUnit, hbody]
        exact (tracks_functionBody f body ⟨n, strings, .reserving c.reserved, []⟩).finish _
      exact hunit.bind fun r _ _ => (ih _ _).finish _

end

theorem globalDatum_eq_error {strings : List String} {g : GlobalDef} {e : CompileError}
    (h : globalDatum strings g = .error e) : e = .chrFromString := by
  unfold globalDatum at h
  split at h <;> cases h
  rfl

/-- The data of the globals fails in one way only. -/
theorem globalData_eq_error {k : Nat} {seen strings : List String} {gs : List GlobalDef}
    {e : CompileError} (h :
      (globalData seen strings gs : Except CompileError (List (Primitive k) × List String)) =
      .error e) :
    e = .chrFromString := by
  induction gs generalizing seen strings with
  | nil => cases h
  | cons g gs ih =>
    rw [globalData] at h
    dsimp only at h
    split at h
    · exact ih h
    · cases hdatum : globalDatum strings g with
      | error e' =>
        rw [hdatum] at h
        cases h
        exact globalDatum_eq_error hdatum
      | ok r =>
        rw [hdatum] at h
        change (globalData _ r.2 gs >>= _) = _ at h
        cases hrest : (globalData (g.binding.name :: seen) r.2 gs :
            Except CompileError (List (Primitive k) × List String)) with
        | error e' =>
          rw [hrest] at h
          cases h
          exact ih hrest
        | ok r' =>
          rw [hrest] at h
          cases h

end Firestorm.Native
