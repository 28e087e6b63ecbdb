import Firestorm.Proofs.Bytecode.Evaluation

/-!
# The code of statements

The code of a statement changes variables, heap and output as the statement does. A declaration
gives the variable a place before its initial value is computed, a condition is followed by a jump
over the code that it guards, and a loop ends with a jump to its start.

## Main results

* `Setting.stmtSimulated_succ`, `Setting.blockSimulated_succ`: the code of statements.
-/

namespace Firestorm.Setting

open Bytecode StackMachine

variable {σ : Setting} {fuel : Nat} (a : σ.Activation)
variable {value : Word} {stack : List Word} {k : Naming} {F : Firestorm.Frame} {m : Machine}
  {slots : Slots} {s : State} {more : List CodeLine}

/-! ### Jumps -/

section

variable {k : Naming} {first last more : List CodeLine} {n : Nat} {slots : Slots} {s : State}

theorem Activation.frame_of_label (hcode : a.code = first ++ numbered n :: last) (slots : Slots) :
    a.frame (σ.naming first) last slots =
      ⟨σ.image.drop ((σ.symbols.get? (sectionSymbol a.function.name (toString n))).getD 0).toNat,
        slots, a.function.attributes.noreturn⟩ := by
  obtain ⟨address, haddress, hdrop⟩ := a.lies.label first n last hcode
  change _ = StackMachine.Frame.mk (σ.image.drop ((σ.symbols.get?
    (sectionSymbol (functionSection σ.names.functions a.function a.body a.label).name
      (toString n))).getD 0).toNat) slots _
  rw [haddress, Option.getD_some, hdrop]
  rfl

theorem Activation.reaches_jump (hcode : a.code = first ++ numbered n :: last) :
    σ.RunsTo (a.at_ k (jumpTo .always n :: more) slots s)
      (a.at_ (σ.naming first) last slots s) := by
  refine a.reaches_instruction ?_
  rw [a.frame_of_label hcode]
  rfl

theorem Activation.reaches_ifFalse (hcode : a.code = first ++ numbered n :: last)
    (hstack : s.stack = value :: stack) :
    σ.RunsTo (a.at_ k (jumpTo .ifFalse n :: more) slots s)
      (.running (if value = 0 then a.frame (σ.naming first) last slots else a.frame k more slots)
        { s with stack := stack }) := by
  refine .next ((a.step_instruction (i := .jump .ifFalse (toString n)) (by simp)).trans ?_)
  rw [a.frame_of_label hcode, Naming.command, perform, State.pop_of_stack hstack]
  rfl

theorem Activation.reaches_ifTrue (hcode : a.code = first ++ numbered n :: last)
    (hstack : s.stack = value :: stack) :
    σ.RunsTo (a.at_ k (jumpTo .ifTrue n :: more) slots s)
      (.running (if value = 0 then a.frame k more slots else a.frame (σ.naming first) last slots)
        { s with stack := stack }) := by
  refine .next ((a.step_instruction (i := .jump .ifTrue (toString n)) (by simp)).trans ?_)
  rw [a.frame_of_label hcode, Naming.command, perform, State.pop_of_stack hstack]
  rfl

end

/-! ### Declarations -/

section

variable {before more : List CodeLine} {b : Binding} {slots : Slots} {s : State}

theorem naming_variable (before : List CodeLine) (b : Binding) :
    (σ.naming (before ++ [.instruction (.variable_ b)])).locals =
      insertName (σ.naming before).locals b.name := by
  rw [naming_append]
  rfl

theorem Activation.place_variable (hcode : a.code = before ++ .instruction (.variable_ b) :: more) :
    Place a.scope (insertName (σ.naming before).locals b.name) := by
  rw [← naming_variable]
  have hsplit : a.code = (before ++ [.instruction (.variable_ b)]) ++ more := by simp [hcode]
  exact a.place hsplit

theorem Activation.mem_scope_of_variable
    (hcode : a.code = before ++ .instruction (.variable_ b) :: more) : b.name ∈ a.scope :=
  (a.place_variable hcode).mem_scope (mem_insertName.2 (.inr rfl))

/-- A declaration gives the variable a place, with the value zero. -/
theorem Activation.reaches_variable
    (hcode : a.code = before ++ .instruction (.variable_ b) :: more) : σ.RunsTo
      (a.at_ (σ.naming before) (.instruction (.variable_ b) :: more) slots s)
      (a.at_ (σ.naming (before ++ [.instruction (.variable_ b)])) more
        (Function.update slots (localSlot a.scope b.name) (some (cellOf ⟨b.datatype, 0⟩))) s) := by
  have hmem : b.name ∈ insertName (σ.naming before).locals b.name := mem_insertName.2 (.inr rfl)
  have hslot := (a.place_variable hcode).slotOf_local (σ := σ) hmem
  rw [slotOf, if_pos hmem] at hslot
  refine a.reaches_instruction ?_
  rw [Naming.command, hslot, naming_append]
  rfl

/-- The first value of a variable that has just been declared. -/
theorem Activation.reaches_assign_declared (hplace : Place a.scope k.locals)
    (hmem : b.name ∈ k.locals)
    (hslot : slots (localSlot a.scope b.name) = some (cellOf ⟨b.datatype, 0⟩))
    (hstack : s.stack = value :: stack) : σ.RunsTo (a.at_ k (access .assign b.name :: more) slots s)
      (a.at_ k more (Function.update slots (localSlot a.scope b.name)
        (some (cellOf (.holding b.datatype value)))) { s with stack := stack }) := by
  have hlookup : lookup (a.frame k more slots) s (σ.slotOf k.locals b.name) =
      some (cellOf ⟨b.datatype, 0⟩) := by
    rw [lookup, if_pos (hplace.isLocal hmem), hplace.slotOf_local hmem]
    exact hslot
  have hstore : store (a.frame k more slots) { s with stack := stack } (σ.slotOf k.locals b.name)
      ((cellOf ⟨b.datatype, 0⟩).assign value) = .next (a.frame k more (Function.update slots
        (localSlot a.scope b.name) (some (cellOf (.holding b.datatype value)))))
        { s with stack := stack } := by
    rw [store, if_pos (hplace.isLocal hmem), hplace.slotOf_local hmem, assign_cellOf]
    rfl
  refine a.reaches_access hlookup ?_
  rw [performAccess, State.pop_of_stack hstack]
  exact congrArg some hstore

end

/-! ### Values of statements -/

section

variable {k : Naming} {P : String → Prop} {F : Firestorm.Frame} {m : Machine} {slots : Slots}
  {s : State} (more : List CodeLine)

/-- An operation that changes a variable as the interpreter does keeps the states in agreement. -/
theorem simulates_modifyVariable {name : String} {access : Access} {g : Variable → Word}
    (stack : List Word) (hsite : σ.Site a.scope k.locals) (hnamed : Named σ.names k.locals name)
    (hF : σ.FrameAgrees a.scope (fun _ => True) F slots) (hs : σ.StateAgrees m s)
    (haccess : ∀ v frame, performAccess access (cellOf v) (σ.slotOf k.locals name) frame s =
      some (store frame { s with stack := stack } (σ.slotOf k.locals name)
        (cellOf (.holding v.datatype (g v))))) :
    σ.Mimics (a.at_ k (Bytecode.access access name :: more) slots s)
      (Interpreter.modifyVariable F name g) m fun F' m' c =>
        ∃ slots', σ.FrameAgrees a.scope (fun _ => True) F' slots' ∧
          a.Stands k more slots' stack m' c := by
  cases hmodify : Interpreter.modifyVariable F name g m with
  | mk outcome m' =>
    cases outcome with
    | error e =>
      obtain ⟨f, rfl⟩ : ∃ f, e = .fault f := by
        rw [Interpreter.modifyVariable_apply] at hmodify
        split at hmodify <;> cases hmodify
        exact ⟨_, rfl⟩
      exact .of_fault hmodify
    | ok F' =>
      obtain ⟨v, slots', s', hv, hstore, hF', hs', hstack⟩ :=
        store_slotOf hsite hnamed hF (hs.withStack stack) hmodify
          (codeBytes σ.symbols a.function.name k more ++ a.tail) a.function.attributes.noreturn
      have hlookup := lookup_slotOf hsite hnamed hF hs trivial hv
      have hperform := (haccess v (a.frame k more slots)).trans (congrArg some hstore)
      exact .of_ok hmodify (a.reaches_access (hlookup _ _) hperform)
        ⟨slots', hF', s', rfl, hstack, hs'⟩

end

/-! ### Statements -/

theorem naming_append_stmtCode (before : List CodeLine) (functions : FunctionTable) (st : Stmt)
    (n : Nat) : σ.naming (before ++ stmtCode functions st n) =
      { σ.naming before with locals := stmtScope (σ.naming before).locals st } := by
  rw [naming_append, through_stmtCode]

theorem naming_append_blockCode (before : List CodeLine) (functions : FunctionTable)
    (body : List Stmt) (n : Nat) :
    σ.naming (before ++ blockCode functions body n) =
      { σ.naming before with locals := blockScope (σ.naming before).locals body } := by
  rw [naming_append, through_blockCode]

theorem Activation.exprCode_subset {before rest : List CodeLine} {n : Nat} {st : Stmt} {e : Expr}
    (hcode : a.code = before ++ (stmtCode σ.names.functions st n ++ rest)) (he : e ∈ st.operands) :
    exprCode σ.names.functions e ⊆ a.code := fun line hline => by
  rw [hcode]
  exact List.mem_append_right _ (List.mem_append_left _ (exprCode_subset_stmtCode he hline))

section

variable (hσ : σ.program.Consistent) (hE : ∀ e, a.EvalSimulated fuel e)
include hσ hE

/-- The value of an expression of a statement is on the stack when the statement goes on. -/
theorem simulates_value {before rest : List CodeLine} {n : Nat} {st : Stmt} {e : Expr} {α : Type}
    {f : Word → Exec α} {Q : α → Machine → Point → Prop} (more : List CodeLine)
    (hF : σ.FrameAgrees a.scope (fun _ => True) F slots) (hs : σ.StateAgrees m s)
    (hsite : σ.Site a.scope k.locals) (hst : st.parts ⊆ a.function.statements)
    (he : e ∈ st.operands) (hcode : a.code = before ++ (stmtCode σ.names.functions st n ++ rest))
    (hscoped : ExprScoped σ.names k.locals e)
    (hf : ∀ x m' s', s'.stack = x :: s.stack → σ.StateAgrees m' s' →
      σ.Mimics (a.at_ k more slots s') (f x) m' Q) :
    σ.Mimics (a.at_ k (exprCode σ.names.functions e ++ more) slots s)
      (Interpreter.eval σ.names.functions fuel F e >>= f) m Q := by
  have hready := a.exprReady hσ (P := fun _ => True) (hst (Stmt.self_mem_parts st)) he
    (a.exprCode_subset hcode he) hscoped
    fun _ _ => trivial
  exact simulates_operand a hE more hsite hF hs hready fun x m' s' _ hstack hs' =>
    hf x m' s' hstack hs'

theorem stmtSimulated_assign (target : String) (e : Expr) :
    a.StmtSimulated (fuel + 1) (.assign target e) := by
  intro before n F m slots s more hcode hscoped hst hF hs
  obtain ⟨hnamed, hvalue⟩ := hscoped
  have hsite := a.site hσ.separated hcode
  rw [Interpreter.execStmt, naming_append_stmtCode, stmtCode, List.append_assoc]
  refine simulates_value a hσ hE _ hF hs hsite hst (by simp [Stmt.operands]) hcode hvalue
    fun x m' s' hstack hs' => ?_
  refine (simulates_modifyVariable a more s.stack hsite hnamed hF hs' fun v frame => ?_).bind ?_
  · simp only [performAccess, State.pop_of_stack hstack]
    rw [← assign_cellOf]
    rfl
  · rintro F' m'' _ hF'
    exact .pure (.refl _) hF'

omit hE in
theorem stmtSimulated_step {target : String} {st : Stmt}
    (hst : st = .increment target ∨ st = .decrement target) : a.StmtSimulated (fuel + 1) st := by
  rcases hst with rfl | rfl
  all_goals
    intro before n F m slots s more hcode hnamed hst hF hs
    rw [Interpreter.execStmt, naming_append_stmtCode]
    refine (simulates_modifyVariable a more s.stack (a.site hσ.separated hcode) hnamed hF hs
      fun v frame => ?_).bind ?_
    · rw [← assign_cellOf]
      rfl
    · exact fun F' m' _ hF' => .pure (.refl _) hF'

theorem stmtSimulated_expr (e : Expr) : a.StmtSimulated (fuel + 1) (.expr e) := by
  intro before n F m slots s more hcode hscoped hst hF hs
  rw [Interpreter.execStmt, naming_append_stmtCode, stmtCode, List.append_assoc, Exec.discard_bind]
  refine simulates_value a hσ hE _ hF hs (a.site hσ.separated hcode) hst
    (by simp [Stmt.operands]) hcode hscoped fun x m' s' hstack hs' => ?_
  refine .pure (a.reaches_plain ?_) ⟨slots, hF, { s' with stack := s.stack }, rfl, rfl,
    hs'.withStack s.stack⟩
  rw [performPlain, State.pop_of_stack hstack]
  rfl

theorem stmtSimulated_assignIndexed (target : String) (i e : Expr) :
    a.StmtSimulated (fuel + 1) (.assignIndexed target i e) := by
  intro before n F m slots s more hcode hscoped hst hF hs
  obtain ⟨hnamed, hindex, hvalue⟩ := hscoped
  have hsite := a.site hσ.separated hcode
  have hstatement := hst (Stmt.self_mem_parts (.assignIndexed target i e))
  have hready : σ.ExprReady (σ.naming before).locals (fun _ => True) i ∧
      σ.ExprReady (σ.naming before).locals (fun _ => True) e := by
    have hmem : i ∈ (Stmt.assignIndexed target i e).operands ∧
        e ∈ (Stmt.assignIndexed target i e).operands := by
      simp [Stmt.operands]
    exact ⟨a.exprReady hσ hstatement hmem.1 (a.exprCode_subset hcode hmem.1) hindex fun _ _ =>
      trivial,
      a.exprReady hσ hstatement hmem.2 (a.exprCode_subset hcode hmem.2) hvalue fun _ _ => trivial⟩
  rw [naming_append_stmtCode, stmtCode, List.append_assoc, List.append_assoc]
  refine (simulates_assignIndexed a more (hsite.knows hnamed hF trivial) ?_ ?_).mono ?_
  · refine simulates_operands a hE _ hsite hF hs hready.1 hready.2
      fun x y _ m' s' _ _ hstack hs' => ?_
    exact .pure (.refl _) ⟨s', rfl, hstack, hs'⟩
  · rintro v p m' hv hp
    refine hs.variableOf_eq hv fun hname => ?_
    obtain ⟨hindex, hvalue⟩ :=
      hσ.assignIndexed _ a.mem target i e hstatement (σ.mem_globals.1 hname)
    obtain ⟨x, m₁, hx, h₁⟩ := Exec.bind_eq_ok.1 hp
    obtain ⟨y, m₂, hy, h₂⟩ := Exec.bind_eq_ok.1 h₁
    obtain ⟨-, rfl⟩ := Exec.pure_eq_ok.1 h₂
    rw [hvalue _ σ.compiled.functions_eq _ _ _ _ _ hy,
      hindex _ σ.compiled.functions_eq _ _ _ _ _ hx]
  · rintro _ m' c ⟨rfl, hstands⟩
    exact ⟨slots, hF, hstands⟩

omit hE in
theorem stmtSimulated_declare_none (b : Binding) :
    a.StmtSimulated (fuel + 1) (.declare b none) := by
  intro before n F m slots s more hcode hscoped hst hF hs
  have hmem := a.mem_scope_of_variable hcode
  have hzero : cellOf (.holding b.datatype 0) = cellOf ⟨b.datatype, 0⟩ := by
    obtain ⟨_, ⟨kind, array⟩⟩ := b
    cases kind <;> cases array <;> rfl
  have hF' := hF.set a.length_scope hmem (a.notMem_globals hσ.separated hmem) (R := fun _ => True)
    (fun _ _ h => h) (.holding b.datatype 0)
  rw [hzero] at hF'
  have hdeclared : σ.Mimics
      (a.at_ (σ.naming before) (stmtCode σ.names.functions (.declare b none) n ++ more) slots s)
      (pure (F.set b.name (.holding b.datatype 0), none)) m
      (a.Executed (σ.naming (before ++ stmtCode σ.names.functions (.declare b none) n)) more
        s.stack) :=
    .pure (a.reaches_variable hcode) ⟨_, hF', s, rfl, rfl, hs⟩
  rw [Interpreter.execStmt]
  split
  · split
    · exact .of_fault rfl
    · exact hdeclared
  · exact hdeclared

theorem stmtSimulated_declare_some (b : Binding) (e : Expr) :
    a.StmtSimulated (fuel + 1) (.declare b (some e)) := by
  intro before n F m slots s more hcode hscoped hst hF hs
  have hvariable : a.code = before ++ .instruction (.variable_ b) ::
      (exprCode σ.names.functions e ++ (access .assign b.name :: more)) := by
    rw [hcode, stmtCode]
    simp
  have hmem := a.mem_scope_of_variable hvariable
  have hsite : σ.Site a.scope (insertName (σ.naming before).locals b.name) :=
    ⟨a.place_variable hvariable, fun _ hname => a.notMem_globals hσ.separated
      ((a.place_variable hvariable).mem_scope hname)⟩
  have hstatement := hst (Stmt.self_mem_parts (.declare b (some e)))
  have hmem' : e ∈ (Stmt.declare b (some e)).operands := by simp [Stmt.operands]
  -- The initial value does not read the variable, whose place has lost its old value.
  have hforget := hF.forget a.length_scope hmem (some (cellOf ⟨b.datatype, 0⟩))
  have hready : σ.ExprReady (insertName (σ.naming before).locals b.name)
      (fun other => True ∧ other ≠ b.name) e := by
    refine a.exprReady hσ hstatement hmem' (a.exprCode_subset hcode hmem') (hscoped e rfl)
      fun name hname => ?_
    refine ⟨trivial, ?_⟩
    rintro rfl
    exact hσ.initial _ a.mem b e hstatement hname
  have hdeclared : σ.Mimics
      (a.at_ (σ.naming before) (stmtCode σ.names.functions (.declare b (some e)) n ++ more) slots s)
      (do
        let value ← Interpreter.eval σ.names.functions fuel F e
        return (F.set b.name (.holding b.datatype value), none)) m
      (a.Executed (σ.naming (before ++ stmtCode σ.names.functions (.declare b (some e)) n)) more
        s.stack) := by
    rw [naming_append_stmtCode, stmtCode, List.append_assoc, List.append_assoc]
    refine .of_reaches (a.reaches_variable hvariable) ?_
    rw [← naming_variable] at hsite hready
    refine simulates_operand a hE _ hsite hforget hs hready fun x m' s' _ hstack hs' => ?_
    refine .pure (a.reaches_assign_declared hsite.toPlace ?_ (Function.update_self ..) hstack)
      ⟨_, hforget.set a.length_scope hmem (a.notMem_globals hσ.separated hmem)
        (fun _ hne _ => ⟨trivial, hne⟩) _, { s' with stack := s.stack }, ?_, rfl,
        hs'.withStack s.stack⟩
    · rw [naming_variable]
      exact mem_insertName.2 (.inr rfl)
    · rw [naming_append]
      rfl
  rw [Interpreter.execStmt]
  split
  · split
    · exact .of_fault rfl
    · exact hdeclared
  · exact hdeclared

end

/-! ### Returns -/

theorem Activation.reaches_returned (hnoreturn : a.function.attributes.noreturn = false)
    (k : Naming) (more : List CodeLine) (slots : Slots) (s : State) :
    σ.RunsTo (a.at_ k (plain .return_ :: more) slots s)
      (.ended (.returned s)) := by
  refine .return_ ((a.step_instruction (i := .plain .return_) (by simp)).trans ?_)
  simp [Naming.command, perform, performPlain, frame, hnoreturn]

theorem Activation.reaches_return (k : Naming) (more : List CodeLine) (slots : Slots)
    (hstack : s.stack = value :: stack) (hs : σ.StateAgrees m s) :
    ∃ c, σ.RunsTo (a.at_ k (plain .return_ :: more) slots s) c ∧
      (a.function.attributes.noreturn = false → σ.Returned stack value m c) := by
  by_cases hnoreturn : a.function.attributes.noreturn = false
  · exact ⟨_, a.reaches_returned hnoreturn k more slots s, fun _ => ⟨s, rfl, hstack, hs⟩⟩
  · exact ⟨_, .refl _, fun h => absurd h hnoreturn⟩

theorem stmtSimulated_return_none : a.StmtSimulated (fuel + 1) (.return_ none) := by
  intro before n F m slots s more hcode hscoped hst hF hs
  obtain ⟨c, hc, hreturned⟩ := a.reaches_return (σ.naming before) more slots (s := s.push 0) rfl
    (hs.push 0)
  exact .pure ((a.reaches_number 0).trans hc) hreturned

theorem stmtSimulated_return_some (hσ : σ.program.Consistent) (hE : ∀ e, a.EvalSimulated fuel e)
    (e : Expr) : a.StmtSimulated (fuel + 1) (.return_ (some e)) := by
  intro before n F m slots s more hcode hscoped hst hF hs
  rw [Interpreter.execStmt, stmtCode, List.append_assoc]
  refine simulates_value a hσ hE _ hF hs (a.site hσ.separated hcode) hst
    (by simp [Stmt.operands]) hcode (hscoped e rfl) fun x m' s' hstack hs' => ?_
  obtain ⟨c, hc, hreturned⟩ := a.reaches_return (σ.naming before) more slots hstack hs'
  exact .pure hc hreturned

/-! ### Branches and loops -/

/-- Behind statements the activation may go on to other code. -/
theorem Activation.Executed.goes_on {k' : Naming} {more' : List CodeLine} {c : Point}
    {x : Exec (Firestorm.Frame × Option Word)}
    (h : σ.Mimics c x m (a.Executed k more stack))
    (hreaches : ∀ slots s, σ.RunsTo (a.at_ k more slots s)
      (a.at_ k' more' slots s)) :
    σ.Mimics c x m (a.Executed k' more' stack) := by
  refine h.extend ?_
  rintro ⟨F, _ | value⟩ m' c' hexecuted
  · obtain ⟨slots, hF, s, rfl, hstack, hs⟩ := hexecuted
    exact ⟨_, hreaches slots s, slots, hF, s, rfl, hstack, hs⟩
  · exact ⟨c', .refl c', hexecuted⟩

section

variable (hσ : σ.program.Consistent) (hE : ∀ e, a.EvalSimulated fuel e)
  (hB : ∀ body, a.BlockSimulated fuel body) (hS : ∀ st, a.StmtSimulated fuel st)

include hσ hE in
/-- A condition decides whether the code behind it is skipped. -/
theorem simulates_branch {before rest : List CodeLine} {j : Nat} {st : Stmt} {condition : Expr}
    {x y : Exec (Firestorm.Frame × Option Word)}
    {Q : Firestorm.Frame × Option Word → Machine → Point → Prop} {first last : List CodeLine}
    {n : Nat} (hlabel : a.code = first ++ numbered n :: last)
    (hF : σ.FrameAgrees a.scope (fun _ => True) F slots) (hs : σ.StateAgrees m s)
    (hsite : σ.Site a.scope k.locals) (hst : st.parts ⊆ a.function.statements)
    (he : condition ∈ st.operands)
    (hcode : a.code = before ++ (stmtCode σ.names.functions st j ++ rest))
    (hscoped : ExprScoped σ.names k.locals condition)
    (hfalse : ∀ m' s', s'.stack = s.stack → σ.StateAgrees m' s' →
      σ.Mimics (a.at_ (σ.naming first) last slots s') x m' Q)
    (htrue : ∀ m' s', s'.stack = s.stack → σ.StateAgrees m' s' →
      σ.Mimics (a.at_ k more slots s') y m' Q) :
    σ.Mimics
      (a.at_ k (exprCode σ.names.functions condition ++ jumpTo .ifFalse n :: more) slots s)
      (do
        if (← Interpreter.eval σ.names.functions fuel F condition) = 0 then x else y) m Q := by
  refine simulates_value a hσ hE _ hF hs hsite hst he hcode hscoped fun value m' s' hstack hs' => ?_
  split
  · next hzero =>
    refine .of_reaches (a.reaches_ifFalse hlabel hstack) ?_
    rw [if_pos hzero]
    exact hfalse m' _ rfl (hs'.withStack s.stack)
  · next hzero =>
    refine .of_reaches (a.reaches_ifFalse hlabel hstack) ?_
    rw [if_neg hzero]
    exact htrue m' _ rfl (hs'.withStack s.stack)

include hB in
/-- Statements inside a statement, behind which the activation goes on to other code. -/
theorem simulates_block {k' : Naming} {body : List Stmt} {n : Nat} {before more' : List CodeLine}
    (hk : σ.naming before = k)
    (hcode : a.code = before ++ (blockCode σ.names.functions body n ++ more))
    (hscoped : BlockScoped σ.names k.locals body) (hst : Stmt.partsOf body ⊆ a.function.statements)
    (hF : σ.FrameAgrees a.scope (fun _ => True) F slots) (hs : σ.StateAgrees m s)
    (hstack : s.stack = stack) (hreaches : ∀ slots s, σ.RunsTo
      (a.at_ { k with locals := blockScope k.locals body } more slots s) (a.at_ k' more' slots s)) :
    σ.Mimics
      (a.at_ k (blockCode σ.names.functions body n ++ more) slots s)
      (Interpreter.execBlock σ.names.functions fuel F body) m (a.Executed k' more' stack) := by
  subst hk hstack
  have hbody := hB body more hcode hscoped hst hF hs
  rw [naming_append_blockCode] at hbody
  exact Activation.Executed.goes_on a hbody hreaches

include hσ hE hB in
theorem stmtSimulated_ifThen (condition : Expr) (body : List Stmt) :
    a.StmtSimulated (fuel + 1) (.ifThen condition body) := by
  intro before n F m slots s more hcode hscoped hst hF hs
  obtain ⟨hcondition, hbody⟩ := hscoped
  have hlabel : a.code = (before ++ (exprCode σ.names.functions condition ++ jumpTo .ifFalse n ::
      blockCode σ.names.functions body (n + 1))) ++ numbered n :: more := by
    rw [hcode, stmtCode]
    simp
  have hblock : a.code =
      (before ++ (exprCode σ.names.functions condition ++ [jumpTo .ifFalse n])) ++
      (blockCode σ.names.functions body (n + 1) ++ numbered n :: more) := by
    rw [hcode, stmtCode]
    simp
  rw [Interpreter.execStmt, stmtCode]
  simp only [List.append_assoc, List.singleton_append]
  refine simulates_branch a hσ hE hlabel hF hs (a.site hσ.separated hcode) hst
    (by simp [Stmt.operands]) hcode
    hcondition (fun m' s' hstack hs' => ?_) fun m' s' hstack hs' => ?_
  · refine .pure (.refl _) ⟨slots, hF, s', ?_, hstack, hs'⟩
    simp [naming_append]
  · refine simulates_block a hB (by simp [naming_append]) hblock hbody
      (fun _ h => hst (List.mem_cons_of_mem _ h)) hF hs' hstack fun slots s => .of_eq ?_
    simp [Activation.at_, a.frame_numbered, naming_append]

include hσ hE hB in
theorem stmtSimulated_ifElse (condition : Expr) (body otherwise : List Stmt) :
    a.StmtSimulated (fuel + 1) (.ifElse condition body otherwise) := by
  intro before n F m slots s more hcode hscoped hst hF hs
  obtain ⟨hcondition, hbody, hotherwise⟩ := hscoped
  rw [stmtCode] at hcode ⊢
  have hotherwiseLabel : a.code = (before ++ (exprCode σ.names.functions condition ++
      jumpTo .ifFalse n :: (blockCode σ.names.functions body (n + 1) ++
        [jumpTo .always (n + 1 + blockLabels body)]))) ++ numbered n ::
      (blockCode σ.names.functions otherwise (n + 1 + blockLabels body + 1) ++
        numbered (n + 1 + blockLabels body) :: more) := by
    rw [hcode]
    simp
  have hendLabel : a.code = (before ++ (exprCode σ.names.functions condition ++
      jumpTo .ifFalse n :: (blockCode σ.names.functions body (n + 1) ++
        jumpTo .always (n + 1 + blockLabels body) :: numbered n ::
          blockCode σ.names.functions otherwise (n + 1 + blockLabels body + 1)))) ++
      numbered (n + 1 + blockLabels body) :: more := by
    rw [hcode]
    simp
  have hblock : a.code =
      (before ++ (exprCode σ.names.functions condition ++ [jumpTo .ifFalse n])) ++
      (blockCode σ.names.functions body (n + 1) ++ jumpTo .always (n + 1 + blockLabels body) ::
        numbered n :: (blockCode σ.names.functions otherwise (n + 1 + blockLabels body + 1) ++
          numbered (n + 1 + blockLabels body) :: more)) := by
    rw [hcode]
    simp
  rw [Interpreter.execStmt]
  simp only [List.append_assoc, List.cons_append]
  refine simulates_branch a hσ hE hotherwiseLabel hF hs (a.site hσ.separated hcode) hst
    (by simp [Stmt.operands]) hcode hcondition (fun m' s' hstack hs' => ?_)
    fun m' s' hstack hs' => ?_
  · refine simulates_block a hB (by simp [naming_append])
      (hotherwiseLabel.trans (List.append_cons ..)) (by simpa [naming_append] using hotherwise)
      (fun _ h => hst (List.mem_cons_of_mem _ (List.mem_append_right _ h))) hF hs' hstack
      fun slots s => .of_eq ?_
    simp [Activation.at_, a.frame_numbered, naming_append]
  · refine simulates_block a hB (by simp [naming_append]) hblock hbody
      (fun _ h => hst (List.mem_cons_of_mem _ (List.mem_append_left _ h))) hF hs' hstack
      fun slots s => (a.reaches_jump hendLabel).trans (.of_eq ?_)
    simp [naming_append]

include hσ hE hB hS in
theorem stmtSimulated_while (condition : Expr) (body : List Stmt) :
    a.StmtSimulated (fuel + 1) (.while_ condition body) := by
  intro before n F m slots s more hcode hscoped hst hF hs
  obtain ⟨hcondition, hbody⟩ := hscoped
  have hstartLabel : a.code = before ++ numbered n :: (exprCode σ.names.functions condition ++
      jumpTo .ifFalse (n + 1) :: (blockCode σ.names.functions body (n + 2) ++
        jumpTo .always n :: numbered (n + 1) :: more)) := by
    rw [hcode, stmtCode]
    simp
  have hendLabel : a.code = (before ++ (numbered n :: (exprCode σ.names.functions condition ++
      jumpTo .ifFalse (n + 1) ::
      (blockCode σ.names.functions body (n + 2) ++ [jumpTo .always n])))) ++
      numbered (n + 1) :: more := by
    rw [hcode, stmtCode]
    simp
  have hblock : a.code = (before ++ (numbered n :: (exprCode σ.names.functions condition ++
      [jumpTo .ifFalse (n + 1)]))) ++ (blockCode σ.names.functions body (n + 2) ++
        jumpTo .always n :: numbered (n + 1) :: more) := by
    rw [hcode, stmtCode]
    simp
  have hstart : ∀ slots s, a.at_ (σ.naming before)
      (stmtCode σ.names.functions (.while_ condition body) n ++ more) slots s =
      a.at_ (σ.naming before) (exprCode σ.names.functions condition ++ jumpTo .ifFalse (n + 1) ::
        (blockCode σ.names.functions body (n + 2) ++ jumpTo .always n :: numbered (n + 1) :: more))
        slots s := by
    simp [stmtCode, Activation.at_, a.frame_numbered]
  rw [Interpreter.execStmt, hstart]
  refine simulates_branch a hσ hE hendLabel hF hs (a.site hσ.separated hcode) hst
    (by simp [Stmt.operands]) hcode hcondition (fun m' s' hstack hs' => ?_)
    fun m' s' hstack hs' => ?_
  · refine .pure (.refl _) ⟨slots, hF, s', ?_, hstack, hs'⟩
    simp [naming_append, stmtCode]
  · refine Simulates.bind (simulates_block a hB (by simp [naming_append]) hblock hbody
      (fun _ h => hst (List.mem_cons_of_mem _ h)) hF hs' hstack
      fun slots s => a.reaches_jump hstartLabel) ?_
    rintro ⟨F', _ | value⟩ m'' c hexecuted
    · obtain ⟨slots', hF', s'', rfl, hstack', hs''⟩ := hexecuted
      have hagain := hS (.while_ condition body) more hcode ⟨hcondition, hbody⟩ hst hF' hs''
      rwa [hstart, hstack'] at hagain
    · exact .pure (.refl c) hexecuted

include hB hS in
theorem stmtSimulated_loop (body : List Stmt) : a.StmtSimulated (fuel + 1) (.loop body) := by
  intro before n F m slots s more hcode hscoped hst hF hs
  have hstartLabel : a.code = before ++ numbered n :: (blockCode σ.names.functions body (n + 1) ++
      jumpTo .always n :: more) := by
    rw [hcode, stmtCode]
    simp
  have hstart : ∀ slots s, a.at_ (σ.naming before)
      (stmtCode σ.names.functions (.loop body) n ++ more) slots s =
      a.at_ (σ.naming before) (blockCode σ.names.functions body (n + 1) ++ jumpTo .always n :: more)
        slots s := by
    simp [stmtCode, Activation.at_, a.frame_numbered]
  rw [Interpreter.execStmt, hstart]
  refine Simulates.bind (simulates_block a hB (by simp [naming_append])
    (hstartLabel.trans (List.append_cons ..)) hscoped
    (fun _ h => hst (List.mem_cons_of_mem _ h)) hF hs
    rfl fun slots s => a.reaches_jump hstartLabel) ?_
  rintro ⟨F', _ | value⟩ m' c hexecuted
  · obtain ⟨slots', hF', s', rfl, hstack, hs'⟩ := hexecuted
    have hagain := hS (.loop body) more hcode hscoped hst hF' hs'
    rwa [hstart, hstack] at hagain
  · exact .pure (.refl c) hexecuted

include hσ hE hB hS in
theorem stmtSimulated_doWhile (body : List Stmt) (condition : Expr) :
    a.StmtSimulated (fuel + 1) (.doWhile body condition) := by
  intro before n F m slots s more hcode hscoped hst hF hs
  obtain ⟨hbody, hcondition⟩ := hscoped
  have hstartLabel : a.code = before ++ numbered n :: (blockCode σ.names.functions body (n + 1) ++
      (exprCode σ.names.functions condition ++ jumpTo .ifTrue n :: more)) := by
    rw [hcode, stmtCode]
    simp
  have hconditionCode : a.code =
      (before ++ (numbered n :: blockCode σ.names.functions body (n + 1))) ++
      (exprCode σ.names.functions condition ++ jumpTo .ifTrue n :: more) := by
    rw [hcode, stmtCode]
    simp
  have hstart : ∀ slots s, a.at_ (σ.naming before)
      (stmtCode σ.names.functions (.doWhile body condition) n ++ more) slots s =
      a.at_ (σ.naming before) (blockCode σ.names.functions body (n + 1) ++
        (exprCode σ.names.functions condition ++ jumpTo .ifTrue n :: more)) slots s := by
    simp [stmtCode, Activation.at_, a.frame_numbered]
  have hnaming : σ.naming (before ++ (numbered n :: blockCode σ.names.functions body (n + 1))) =
      { σ.naming before with locals := blockScope (σ.naming before).locals body } := by
    simp [naming_append]
  have hsite := a.site hσ.separated hconditionCode
  rw [hnaming] at hsite
  rw [Interpreter.execStmt, hstart]
  refine Simulates.bind (simulates_block a hB (by simp [naming_append])
    (hstartLabel.trans (List.append_cons ..)) hbody
    (fun _ h => hst (List.mem_cons_of_mem _ h)) hF hs rfl fun _ _ => .refl _) ?_
  rintro ⟨F', _ | value⟩ m' c hexecuted
  · obtain ⟨slots', hF', s', rfl, hstack, hs'⟩ := hexecuted
    refine simulates_value a hσ hE _ hF' hs' hsite hst (by simp [Stmt.operands]) hcode hcondition
      fun x m'' s'' hstack' hs'' => .of_reaches (a.reaches_ifTrue hstartLabel hstack') ?_
    have hpopped := hs''.withStack s'.stack
    split
    · refine .pure (.refl _) ⟨slots', hF', { s'' with stack := s'.stack }, ?_, hstack, hpopped⟩
      rw [naming_append_stmtCode]
      rfl
    · have hagain := hS (.doWhile body condition) more hcode ⟨hbody, hcondition⟩ hst hF' hpopped
      rw [hstart] at hagain
      exact hstack ▸ hagain
  · exact .pure (.refl c) hexecuted

include hσ hE hB hS in
theorem stmtSimulated_succ (st : Stmt) : a.StmtSimulated (fuel + 1) st := by
  cases st with
  | declare b init =>
    cases init with
    | none => exact stmtSimulated_declare_none a hσ b
    | some e => exact stmtSimulated_declare_some a hσ hE b e
  | assign target e => exact stmtSimulated_assign a hσ hE target e
  | assignIndexed target i e => exact stmtSimulated_assignIndexed a hσ hE target i e
  | increment target => exact stmtSimulated_step a hσ (.inl rfl)
  | decrement target => exact stmtSimulated_step a hσ (.inr rfl)
  | return_ value =>
    cases value with
    | none => exact stmtSimulated_return_none a
    | some e => exact stmtSimulated_return_some a hσ hE e
  | ifThen condition body => exact stmtSimulated_ifThen a hσ hE hB condition body
  | ifElse condition body otherwise =>
    exact stmtSimulated_ifElse a hσ hE hB condition body otherwise
  | while_ condition body => exact stmtSimulated_while a hσ hE hB hS condition body
  | doWhile body condition => exact stmtSimulated_doWhile a hσ hE hB hS body condition
  | loop body => exact stmtSimulated_loop a hB hS body
  | expr e => exact stmtSimulated_expr a hσ hE e

include hB hS in
theorem blockSimulated_succ (body : List Stmt) : a.BlockSimulated (fuel + 1) body := by
  intro before n F m slots s more hcode hscoped hst hF hs
  cases body with
  | nil =>
    refine .pure (.refl _) ⟨slots, hF, s, ?_, rfl, hs⟩
    rw [blockCode, List.append_nil]
    rfl
  | cons st rest =>
    obtain ⟨hstatement, hrest⟩ := hscoped
    rw [blockCode, List.append_assoc] at hcode
    rw [Interpreter.execBlock, blockCode, List.append_assoc]
    have hfirst := hS st _ hcode hstatement (fun _ h => hst (List.mem_append_left _ h)) hF hs
    refine hfirst.bind ?_
    rintro ⟨F', _ | value⟩ m' c hexecuted
    · obtain ⟨slots', hF', s', rfl, hstack, hs'⟩ := hexecuted
      rw [← List.append_assoc] at hcode
      have hscope : BlockScoped σ.names
          (σ.naming (before ++ stmtCode σ.names.functions st n)).locals rest := by
        rwa [naming_append_stmtCode]
      have hmore := hB rest more hcode hscope (fun _ h => hst (List.mem_append_right _ h)) hF' hs'
      rwa [hstack, List.append_assoc] at hmore
    · exact .pure (.refl c) hexecuted

end

end Firestorm.Setting
