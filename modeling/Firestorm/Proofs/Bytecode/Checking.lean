import Firestorm.Bytecode.Emit
import Firestorm.Proofs.Symbols.Checks

/-!
# The checks of the generator of bytecode

The generator of bytecode makes the checks of the names of a program, in the order of the text, and
no other ones. It declares the parameters of a function from the last to the first.

## Main results

* `Bytecode.matches_emitFunctions`, `Program.checked_of_toBytecode`.
* `Bytecode.tracks_emitExpr`, `Bytecode.tracks_emitBlock`: the checks of the parts of a function.
-/

namespace Firestorm

namespace Bytecode

open Checks

/-- The datatypes of the locals declared so far. -/
def EmitState.datatypes (s : EmitState) : Locals := s.layout.datatypes

/-- Generation fails where a check fails, and nowhere else. -/
abbrev Emit.Makes {α β : Type} (x : Emit α) (y : Check β) : Prop :=
  Tracks (fun _ => False) EmitState.datatypes (fun _ _ => True) x y

section

variable {N : Names}

theorem tracks_freshLabel : Emit.Makes freshLabel (pure ()) :=
  fun _ => .pure ⟨trivial, rfl⟩

theorem tracks_noteCallee (name : String) : Emit.Makes (noteCallee name) (pure ()) :=
  fun _ => .pure ⟨trivial, rfl⟩

theorem tracks_declareLocal (b : Binding) : Emit.Makes (declareLocal b) (Checks.declare b) := by
  intro s
  have hdeclare : declareLocal b s = ((s.layout.declare b).mapError CompileError.symbol >>= fun r =>
      .ok ((), { s with layout := r.2 })) := by
    change (ofSymbols (s.layout.declare b) >>= fun r => modify fun s =>
      { s with layout := r.2 }) s = _
    cases s.layout.declare b <;> rfl
  rw [hdeclare, ← bind_pure (Checks.declare b s.datatypes)]
  exact (s.layout.declare_matches _ b).bind fun r r' h => .pure ⟨trivial, h⟩

theorem tracks_variableDatatype (name : String) :
    Tracks (fun _ => False) EmitState.datatypes Eq (variableDatatype N name)
      (datatype N.globals name) := by
  intro s
  unfold variableDatatype EmitState.datatypes
  rw [Fallible.get_bind]
  cases hslot : s.layout.get? name with
  | some slot =>
    rw [datatype_of_slot hslot]
    exact .pure ⟨rfl, rfl⟩
  | none =>
    cases hglobal : N.globals.get? name with
    | some d =>
      rw [datatype_of_global hslot hglobal]
      exact .pure ⟨rfl, rfl⟩
    | none =>
      rw [datatype_of_none hslot hglobal]
      exact .throw _

theorem tracks_resolve (callee : String) (arguments : Nat) :
    Emit.Makes (ofSymbols (N.functions.resolve callee arguments))
      (Checks.callee N.functions callee arguments) := by
  intro s
  unfold Checks.callee
  cases N.functions.resolve callee arguments with
  | ok f => exact .pure ⟨trivial, rfl⟩
  | error e => exact .throw _

mutual

theorem tracks_emitExpr :
    ∀ e : Expr, Emit.Makes (emitExpr N e) (Checks.expr N.globals N.functions e)
  | .literal value => by
    rw [emitExpr, Checks.expr]
    exact .pure trivial
  | .lookup name => by
    rw [emitExpr, Checks.expr]
    exact (tracks_variableDatatype name).discard.finish _
  | .index name i => by
    rw [emitExpr, Checks.expr]
    exact (tracks_variableDatatype name).discard.bind fun _ _ _ => (tracks_emitExpr i).finish _
  | .call callee arguments => by
    rw [emitExpr, Checks.expr]
    refine (tracks_resolve callee arguments.length).bind fun f _ _ => ?_
    rw [← bind_pure (Checks.exprs N.globals N.functions arguments)]
    refine (tracks_emitArguments arguments).bind fun code _ _ => ?_
    split
    · exact .pure trivial
    · exact (tracks_noteCallee f.name).finish _
  | .binary _ left right | .compare _ left right => by
    rw [emitExpr, Checks.expr]
    exact (tracks_emitExpr left).bind fun a _ _ => (tracks_emitExpr right).finish _
  | .unary .plus operand => by
    rw [emitExpr, Checks.expr]
    exact tracks_emitExpr operand
  | .unary .minus operand | .unary .bitNot operand | .not operand => by
    rw [emitExpr, Checks.expr]
    exact (tracks_emitExpr operand).finish _

theorem tracks_emitArguments : ∀ es : List Expr,
    Emit.Makes (emitArguments N es) (Checks.exprs N.globals N.functions es)
  | [] => by
    rw [emitArguments, Checks.exprs]
    exact .pure trivial
  | e :: rest => by
    rw [emitArguments, Checks.exprs]
    exact (tracks_emitExpr e).bind fun a _ _ => (tracks_emitArguments rest).finish _

end

mutual

theorem tracks_emitStmt :
    ∀ st : Stmt, Emit.Makes (emitStmt N st) (Checks.stmt N.globals N.functions st)
  | .declare b none => by
    rw [emitStmt, Checks.stmt]
    exact (tracks_declareLocal b).finish _
  | .declare b (some e) => by
    rw [emitStmt, Checks.stmt]
    exact (tracks_declareLocal b).bind fun _ _ _ => (tracks_emitExpr e).finish _
  | .assign target value => by
    rw [emitStmt, Checks.stmt]
    exact (tracks_variableDatatype target).discard.bind fun _ _ _ =>
      (tracks_emitExpr value).finish _
  | .assignIndexed target i value => by
    rw [emitStmt, Checks.stmt]
    refine (tracks_variableDatatype target).bind fun d d' hd => ?_
    subst hd
    exact Tracks.guard ((tracks_emitExpr i).bind fun _ _ _ => (tracks_emitExpr value).finish _)
  | .increment target | .decrement target => by
    rw [emitStmt, Checks.stmt]
    exact (tracks_variableDatatype target).discard.finish _
  | .return_ none => by
    rw [emitStmt, Checks.stmt]
    exact .pure trivial
  | .return_ (some e) => by
    rw [emitStmt, Checks.stmt]
    exact (tracks_emitExpr e).finish _
  | .ifThen condition body => by
    rw [emitStmt, Checks.stmt]
    exact (tracks_emitExpr condition).bind fun _ _ _ => tracks_freshLabel.silent_bind fun _ =>
      (tracks_emitBlock body).finish _
  | .ifElse condition body otherwise => by
    rw [emitStmt, Checks.stmt]
    exact (tracks_emitExpr condition).bind fun _ _ _ => tracks_freshLabel.silent_bind fun _ =>
      (tracks_emitBlock body).bind fun _ _ _ => tracks_freshLabel.silent_bind fun _ =>
      (tracks_emitBlock otherwise).finish _
  | .while_ condition body => by
    rw [emitStmt, Checks.stmt]
    exact tracks_freshLabel.silent_bind fun _ => (tracks_emitExpr condition).bind fun _ _ _ =>
      tracks_freshLabel.silent_bind fun _ => (tracks_emitBlock body).finish _
  | .doWhile body condition => by
    rw [emitStmt, Checks.stmt]
    exact tracks_freshLabel.silent_bind fun _ => (tracks_emitBlock body).bind fun _ _ _ =>
      (tracks_emitExpr condition).finish _
  | .loop body => by
    rw [emitStmt, Checks.stmt]
    exact tracks_freshLabel.silent_bind fun _ => (tracks_emitBlock body).finish _
  | .expr e => by
    rw [emitStmt, Checks.stmt]
    exact (tracks_emitExpr e).finish _

theorem tracks_emitBlock : ∀ body : List Stmt,
    Emit.Makes (emitBlock N body) (Checks.block N.globals N.functions body)
  | [] => by
    rw [emitBlock, Checks.block]
    exact .pure trivial
  | st :: rest => by
    rw [emitBlock, Checks.block]
    exact (tracks_emitStmt st).bind fun _ _ _ => (tracks_emitBlock rest).finish _

end

theorem tracks_emitParameters : ∀ bs : List Binding,
    Emit.Makes (emitParameters bs) (declareAll bs)
  | [] => by
    rw [emitParameters, declareAll]
    exact .pure trivial
  | b :: rest => by
    rw [emitParameters, declareAll]
    exact (tracks_declareLocal b).bind fun _ _ _ => (tracks_emitParameters rest).finish _

theorem tracks_emitBody (f : FunctionDef) (body : List Stmt) :
    Emit.Makes (emitBody N f body)
      (Checks.function N.globals N.functions f.parameters.reverse body) := by
  have hcode : ∀ mark : List CodeLine, Emit.Makes (do
      let parameters ← emitParameters f.parameters.reverse
      let code ← emitBlock N body
      pure (mark ++ parameters ++ code ++ [number 0, plain .return_]))
      (Checks.function N.globals N.functions f.parameters.reverse body) := fun mark =>
    (tracks_emitParameters f.parameters.reverse).bind fun _ _ _ => (tracks_emitBlock body).finish _
  unfold emitBody
  simp only [pure_bind]
  split
  · exact (tracks_noteCallee _).silent_bind fun _ => hcode _
  · exact hcode _

/-- The sections of functions are generated if the functions pass the checks. -/
theorem matches_emitFunctions (n : Nat) (graph : CallGraph) (fs : List FunctionDef) :
    Matches (fun _ => False) (fun _ _ => True) (emitFunctions N n graph fs)
      (Checks.program N.globals N.functions List.reverse fs) := by
  induction fs generalizing n graph with
  | nil => exact .pure trivial
  | cons f rest ih =>
    cases hbody : f.body with
    | assembly text =>
      simp only [emitFunctions, Checks.program, hbody]
      exact ih _ _
    | statements body =>
      simp only [emitFunctions, Checks.program, hbody]
      have hfunction : Matches (fun _ => False) (fun _ _ => True) (emitFunction N n f body)
          (Checks.function N.globals N.functions f.parameters.reverse body fun _ => none) :=
        (tracks_emitBody f body ⟨n, .reserving 0, []⟩).finish _
      exact hfunction.bind fun r _ _ => (ih _ _).finish _

end

end Bytecode

open Fallible

/-- The functions of a program with bytecode are checked. -/
theorem Program.checked_of_toBytecode {p : Program} {sections : List Section}
    (h : p.toBytecode = .ok sections) :
    ∃ globals functions, GlobalTable.ofProgram p = .ok globals ∧
      FunctionTable.ofProgram p = .ok functions ∧
      ∀ f ∈ p.functions, ∀ body, f.body = .statements body → f.Checked functions := by
  simp only [Program.toBytecode, except_bind_eq_ok, mapError_eq_ok] at h
  obtain ⟨globals, hglobals, functions, hfunctions, ⟨sections', graph⟩, hemit, -⟩ := h
  obtain ⟨_, -, hchecks⟩ := (Bytecode.matches_emitFunctions 0 {} p.functions).ok hemit
  refine ⟨globals, functions, hglobals, hfunctions, fun f hf body hbody => ?_⟩
  exact Checks.checked_of_program (fun _ _ => List.mem_reverse) hchecks hf hbody

end Firestorm
