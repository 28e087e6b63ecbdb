import Firestorm.Proofs.Bytecode.Checking
import Firestorm.Proofs.Native.Checking
import Firestorm.Target

/-!
# The programs that code generators accept

The generators of native code and of bytecode accept the same programs and refuse the others for the
same kind of reason, but for the limits of native code: the number of registers, and the initial
values that data can have. They do not always name the same variable: parameters are declared in
opposite orders.

## Main definitions

* `CompileError.Kind`, `CompileError.kind`, `CompileError.Kind.common`, `verdict`.

## Main results

* `Checks.verdict_program`, `Program.verdict_toNative`.
* `Target.acceptance_agrees`: the targets accept the same programs.
-/

namespace Firestorm

open Fallible

/-- The kinds of errors of the code generators. -/
inductive CompileError.Kind
  | undefined
  | undefinedFunction
  | arity
  | redefined
  | duplicateFunction
  | globalArrayInit
  | bitAssignment
  | chrFromString
  | registersExhausted
deriving Repr, DecidableEq

/-- The kinds that do not depend on the target. -/
def CompileError.Kind.common : List CompileError.Kind :=
  [undefined, undefinedFunction, arity, redefined, duplicateFunction, globalArrayInit,
    bitAssignment]

/-- The kind of an error. -/
def CompileError.kind : CompileError → CompileError.Kind
  | symbol (.undefined _) => .undefined
  | symbol (.undefinedFunction _) => .undefinedFunction
  | symbol (.arity ..) => .arity
  | symbol (.redefined _) => .redefined
  | symbol (.duplicateFunction _) => .duplicateFunction
  | symbol (.globalArrayInit _) => .globalArrayInit
  | bitAssignment => .bitAssignment
  | chrFromString => .chrFromString
  | registersExhausted _ => .registersExhausted

/-- Whether something is generated, and for what kind of reason it is not. -/
def verdict {α : Type} (x : Except CompileError α) : Except CompileError.Kind Unit :=
  (x.map fun _ => ()).mapError CompileError.kind

section

variable {α β : Type}

@[simp] theorem verdict_ok (a : α) : verdict (.ok a) = .ok () := rfl

@[simp] theorem verdict_error (e : CompileError) :
    verdict (.error e : Except CompileError α) = .error e.kind :=
  rfl

variable {x : Except CompileError α}

/-- Two generators that begin with the same step come to the same verdict if they do behind it. -/
theorem verdict_bind_congr {γ : Type} {f : α → Except CompileError β}
    {g : α → Except CompileError γ} (h : ∀ a, x = .ok a → verdict (f a) = verdict (g a)) :
    verdict (x >>= f) = verdict (x >>= g) := by
  cases x with
  | error e => rfl
  | ok a => exact h a rfl

/-- Steps behind a generator that do not fail do not change its verdict. -/
theorem verdict_bind_ok {f : α → Except CompileError β} (h : ∀ a, x = .ok a → ∃ b, f a = .ok b) :
    verdict (x >>= f) = verdict x := by
  cases x with
  | error e => rfl
  | ok a =>
    obtain ⟨b, hb⟩ := h a rfl
    rw [ok_bind, hb]
    rfl

theorem verdict_map (x : Except CompileError α) (f : α → β) : verdict (x.map f) = verdict x := by
  cases x <;> rfl

theorem exists_ok_iff : (∃ a, x = .ok a) ↔ verdict x = .ok () := by
  cases x <;> simp

end

/-! ### The order of parameters -/

namespace Checks

variable (globals : GlobalTable) (functions : FunctionTable)

theorem declareAll_reverse_eq_ok {bs : List Binding} {locals locals' : Locals} :
    declareAll bs.reverse locals = .ok ((), locals') ↔
    declareAll bs locals = .ok ((), locals') := by
  simp only [declareAll_eq_ok, Adds, List.mem_reverse]

/-- In either order the parameters of a function lead to the same checks, or to a name with two
datatypes. -/
theorem function_reverse (bs : List Binding) (body : List Stmt) (locals : Locals) :
    function globals functions bs.reverse body locals = function globals functions bs body locals ∨
    ∃ name name', function globals functions bs.reverse body locals =
      .error (.symbol (.redefined name)) ∧
      function globals functions bs body locals = .error (.symbol (.redefined name')) := by
  cases h : declareAll bs locals with
  | ok r =>
    refine .inl ?_
    change (declareAll bs.reverse locals >>= _) = (declareAll bs locals >>= _)
    rw [h, declareAll_reverse_eq_ok.2 h]
  | error e =>
    cases h' : declareAll bs.reverse locals with
    | ok r =>
      rw [declareAll_reverse_eq_ok.1 h'] at h
      cases h
    | error e' =>
      obtain ⟨name, rfl⟩ := declareAll_eq_error h
      obtain ⟨name', rfl⟩ := declareAll_eq_error h'
      exact .inr ⟨name', name, bind_eq_error.2 (.inl h'), bind_eq_error.2 (.inl h)⟩

/-- The order of parameters does not matter to the verdict. -/
theorem verdict_program (fs : List FunctionDef) :
    verdict (program globals functions List.reverse fs) =
    verdict (program globals functions id fs) := by
  induction fs with
  | nil => rfl
  | cons f rest ih =>
    cases hbody : f.body with
    | assembly text => simpa only [program, hbody] using ih
    | statements body =>
      simp only [program, hbody]
      rcases function_reverse globals functions f.parameters body fun _ => none with
        heq | ⟨name, name', heq, heq'⟩
      · rw [heq]
        exact verdict_bind_congr fun _ _ => ih
      · rw [heq, id, heq']
        rfl

end Checks

/-! ### The two generators -/

namespace Program

variable (p : Program)

/-- The checks of the names of a program. -/
def checks (order : List Binding → List Binding) : Except CompileError Unit := do
  let globals ← (GlobalTable.ofProgram p).mapError .symbol
  let functions ← (FunctionTable.ofProgram p).mapError .symbol
  Checks.program globals functions order p.functions

theorem verdict_toBytecode : verdict p.toBytecode = verdict (p.checks List.reverse) := by
  unfold toBytecode checks
  refine verdict_bind_congr fun globals _ => verdict_bind_congr fun functions _ => ?_
  have hmatches := Bytecode.matches_emitFunctions (N := ⟨globals, functions⟩) 0 {} p.functions
  rw [← hmatches.map_eq fun _ _ => not_false, verdict_map]
  exact verdict_bind_ok fun r _ => ⟨_, rfl⟩

/-- Native code is generated if the checks pass, unless one of its own limits is met. -/
theorem verdict_toNative {c : Native.Convention}
    (hregisters : ∀ n, p.toNative c ≠ .error (.registersExhausted n))
    (hstring : p.toNative c ≠ .error .chrFromString) :
    verdict (p.toNative c) = verdict (p.checks id) := by
  unfold toNative at hregisters hstring ⊢
  unfold checks
  refine verdict_bind_congr fun globals hglobals =>
    verdict_bind_congr fun functions hfunctions => ?_
  rw [hglobals, hfunctions] at hregisters hstring
  simp only [ok_bind] at hregisters hstring
  have hmatches := Native.matches_functionUnits (c := c) (N := ⟨globals, functions⟩) 0
    [] p.functions
  have hunits := hmatches.map_eq fun e he => by
    rintro ⟨n, rfl⟩
    exact hregisters n (by rw [he]; rfl)
  rw [← hunits, verdict_map]
  refine verdict_bind_ok fun r hr => ?_
  rw [hr] at hstring
  obtain ⟨units, strings⟩ := r
  cases hdata : (Native.globalData [] strings p.globals :
      Except CompileError (List (Native.Primitive c.registers) × List String)) with
  | error e =>
    obtain rfl := Native.globalData_eq_error hdata
    simp [hdata] at hstring
  | ok data =>
    simp only [hdata, ok_bind]
    exact ⟨_, rfl⟩

end Program

namespace Target

variable {p : Program} {a : Architecture}

/-- The verdict on a program does not depend on the target, unless a limit of native code is met. -/
theorem verdict_generate (hregisters : ∀ n, (native a).generate p ≠ .error (.registersExhausted n))
    (hstring : (native a).generate p ≠ .error .chrFromString) :
    verdict ((native a).generate p) = verdict (bytecode.generate p) := by
  have herror : ∀ e, (native a).generate p ≠ .error e → p.toNative a.convention ≠ .error e :=
    fun e h =>
    ne_error_of_bind h
  calc verdict ((native a).generate p)
    _ = verdict (p.toNative a.convention) := verdict_bind_ok fun code _ => ⟨_, rfl⟩
    _ = verdict (p.checks id) :=
      p.verdict_toNative (fun n => herror _ (hregisters n)) (herror _ hstring)
    _ = verdict (p.checks List.reverse) :=
      verdict_bind_congr fun globals _ => verdict_bind_congr fun functions _ =>
        (Checks.verdict_program globals functions p.functions).symm
    _ = verdict p.toBytecode := p.verdict_toBytecode.symm
    _ = verdict (bytecode.generate p) := (verdict_map _ _).symm

/-- A program for which native code meets none of its own limits has native code exactly if it has
bytecode. If it has neither, both are refused for the same kind of reason. -/
theorem acceptance_agrees (p : Program) (a : Architecture)
    (hregisters : ∀ n, (native a).generate p ≠ .error (.registersExhausted n))
    (hstring : (native a).generate p ≠ .error .chrFromString) :
    ((∃ text, (native a).generate p = .ok text) ↔ ∃ text, bytecode.generate p = .ok text) ∧
    ∀ e e', (native a).generate p = .error e → bytecode.generate p = .error e' →
      e.kind = e'.kind ∧ e.kind ∈ CompileError.Kind.common := by
  have hverdict := verdict_generate hregisters hstring
  refine ⟨by rw [exists_ok_iff, exists_ok_iff, hverdict], fun e e' he he' => ⟨?_, ?_⟩⟩
  · rw [he, he'] at hverdict
    exact Except.error.inj hverdict
  · rw [he] at hregisters hstring
    cases e with
    | symbol error => cases error <;> simp [CompileError.kind, CompileError.Kind.common]
    | bitAssignment => decide
    | chrFromString => exact absurd rfl hstring
    | registersExhausted n => exact absurd rfl (hregisters n)

/-- Two pairs of parameters of one name and two datatypes. -/
def clashing : Program := ⟨[
  .function ⟨"spark", {}, [⟨"a", .int⟩, ⟨"a", .chr⟩, ⟨"b", .int⟩, ⟨"b", .chr⟩], .int,
    .statements []⟩]⟩

theorem generate_clashing (a : Architecture) :
    (native a).generate clashing = .error (.symbol (.redefined "a")) ∧
      bytecode.generate clashing = .error (.symbol (.redefined "b")) := by
  refine ⟨?_, by decide +kernel⟩
  cases a <;> decide +kernel

/-- Both generators refuse the program for the same kind of reason, but name different
parameters. -/
theorem acceptance_agrees_clashing :
    (native .x86).generate clashing = .error (.symbol (.redefined "a")) ∧
      bytecode.generate clashing = .error (.symbol (.redefined "b")) ∧
      (CompileError.symbol (.redefined "a")).kind =
      (CompileError.symbol (.redefined "b")).kind := by
  obtain ⟨hnative, hbytecode⟩ := generate_clashing .x86
  have hagrees := acceptance_agrees clashing .x86 (by simp [hnative]) (by simp [hnative])
  exact ⟨hnative, hbytecode, (hagrees.2 _ _ hnative hbytecode).1⟩

end Target

end Firestorm
