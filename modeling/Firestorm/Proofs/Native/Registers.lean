import Mathlib.Tactic.Common
import Firestorm.Native.Architecture
import Firestorm.Proofs.Fallible
import Firestorm.Proofs.Native.RegisterMachine
import Firestorm.Proofs.Program.Parts

/-!
# The registers that an expression needs

An expression is generated into a target register and works on the registers from there on. How many
of them it needs is read off its form. Calls start again at the first register, so their arguments
are a condition of their own, wherever the calls stand. An expression whose names have a meaning is
generated exactly if the file has the registers that are needed, and else fails for lack of
registers.

## Main definitions

* `Native.need`, `Native.Roomy`, `Native.Resolves`, `Native.Demands`.

## Main results

* `Native.demands_expr`.
* `Native.expr_succeeds_iff_registers`: generation succeeds exactly if there are enough registers.
-/

namespace Firestorm.Native

section

variable (names : Names) (layout : FrameLayout)

/-- The number of registers that an expression needs, its target included. -/
def need : Expr → Nat
  | .literal _ | .lookup _ | .call _ _ => 1
  | .index name index =>
    max (need index + 1) (if (names.variableIn? layout name).any (·.datatype.array) then 0 else 3)
  | .binary _ left right => max (need left) (need right + 1)
  | .compare _ left right => max (max (need left) (need right + 1)) 3
  | .unary _ operand | .not operand => need operand

/-- A call has at most as many arguments as there are registers, and each has room behind those
before it. -/
def Roomy (registers : Nat) : Expr → Prop
  | .call _ arguments => arguments.length ≤ registers ∧
    ∀ i argument, arguments[i]? = some argument → i + need names layout argument ≤ registers
  | _ => True

/-- The variable that an expression reads itself, or the call that it makes itself, has a
meaning. -/
def Resolves : Expr → Prop
  | .lookup name | .index name _ => (names.variableIn? layout name).isSome
  | .call callee arguments => ∃ f, names.functions.resolve callee arguments.length = .ok f
  | _ => True

end

variable {c : Convention} {names : Names} {function : String} {layout : FrameLayout}

theorem need_pos (names : Names) (layout : FrameLayout) (e : Expr) : 0 < need names layout e := by
  fun_induction need names layout e <;> omega

/-! ### Conditions of steps -/

/-- From states with the given locals, a step succeeds under a condition and declares no local. Else
it fails for lack of registers. -/
structure Demands {α : Type} (c : Convention) (layout : FrameLayout) (x : Generate α) (P : Prop) :
    Prop where
  succeeds : ∀ s, s.layout = layout → P → ∃ a s', x s = .ok (a, s') ∧ s'.layout = layout
  fails : ∀ s, s.layout = layout → ¬ P → x s = .error (.registersExhausted c.registers)

namespace Demands

variable {α β : Type} {x : Generate α} {f : α → Generate β} {y : Generate β} {P Q : Prop}

theorem pure (a : α) : Demands c layout (pure a) True :=
  ⟨fun s hs _ => ⟨a, s, rfl, hs⟩, fun _ _ h => absurd trivial h⟩

theorem congr (hx : Demands c layout x P) (h : P ↔ Q) : Demands c layout x Q :=
  propext h ▸ hx

/-- One step after another. -/
theorem bind (hx : Demands c layout x P) (hf : ∀ a, Demands c layout (f a) Q) :
    Demands c layout (x >>= f) (P ∧ Q) where
  succeeds s hs h := by
    obtain ⟨a, s₁, ha, hs₁⟩ := hx.succeeds s hs h.1
    obtain ⟨b, s₂, hb, hs₂⟩ := (hf a).succeeds s₁ hs₁ h.2
    exact ⟨b, s₂, Fallible.bind_eq_ok.2 ⟨a, s₁, ha, hb⟩, hs₂⟩
  fails s hs h := by
    rw [Fallible.bind_eq_error]
    by_cases hP : P
    · obtain ⟨a, s₁, ha, hs₁⟩ := hx.succeeds s hs hP
      exact .inr ⟨a, s₁, ha, (hf a).fails s₁ hs₁ fun hQ => h ⟨hP, hQ⟩⟩
    · exact .inl (hx.fails s hs hP)

/-- A last step that only makes the value. -/
theorem finish (hx : Demands c layout x P) (value : α → β) :
    Demands c layout (x >>= fun a => Pure.pure (value a)) P :=
  (hx.bind fun a => .pure (value a)).congr (and_iff_left trivial)

/-- A step behind one that always succeeds. -/
theorem after (hx : Demands c layout x True) (hf : ∀ a, Demands c layout (f a) P) :
    Demands c layout (x >>= f) P :=
  (hx.bind hf).congr (and_iff_right trivial)

/-- A step behind the look-up of a variable. -/
theorem after_variable {name : String} {v : Variable} {f : Variable → Generate β}
    (h : names.variableIn? layout name = some v) (hf : Demands c layout (f v) P) :
    Demands c layout (variableOf names name >>= f) P := by
  have hv : ∀ s, s.layout = layout → (variableOf names name >>= f) s = f v s := by
    rintro s rfl
    unfold variableOf
    unfold Names.variableIn? at h
    rw [bind_assoc, Fallible.get_bind]
    cases hslot : s.layout.get? name with
    | some slot =>
      rw [hslot] at h
      cases h
      rfl
    | none =>
      rw [hslot] at h
      obtain ⟨d, hd, rfl⟩ := Option.map_eq_some_iff.1 h
      rw [hd]
      rfl
  exact ⟨fun s hs => hv s hs ▸ hf.succeeds s hs, fun s hs => hv s hs ▸ hf.fails s hs⟩

/-- A step behind the check for the number of arguments. -/
theorem guard {n : Nat} (hy : Demands c layout y P) :
    Demands c layout (if n > c.registers then throw (.registersExhausted c.registers) >>= f else y)
      (n ≤ c.registers ∧ P) := by
  by_cases h : n > c.registers
  · rw [if_pos h]
    exact ⟨fun s _ hn => absurd hn.1 (Nat.not_le.2 h), fun s _ _ => rfl⟩
  · rw [if_neg h]
    exact hy.congr (and_iff_right (Nat.not_lt.1 h)).symm

theorem ite {b : Bool} {y : Generate α} (hx : Demands c layout x P) (hy : Demands c layout y Q) :
    Demands c layout (if b then x else y) (if b then P else Q) := by
  cases b
  · exact hy
  · exact hx

end Demands

theorem demands_register (i : Nat) : Demands c layout (register c i) (i < c.registers) where
  succeeds s hs h := ⟨⟨i, h⟩, s, by rw [register, dif_pos h]; rfl, hs⟩
  fails s hs h := by
    rw [register, dif_neg h]
    rfl

theorem demands_intern (content : String) : Demands c layout (intern content) True :=
  ⟨fun _ hs _ => ⟨_, _, rfl, hs⟩, fun _ _ h => absurd trivial h⟩

theorem demands_freshLabel : Demands c layout (freshLabel function) True :=
  ⟨fun _ hs _ => ⟨_, _, rfl, hs⟩, fun _ _ h => absurd trivial h⟩

theorem demands_noteCallee (name : String) : Demands c layout (noteCallee name) True :=
  ⟨fun _ hs _ => ⟨_, _, rfl, hs⟩, fun _ _ h => absurd trivial h⟩

/-! ### Expressions -/

/-- All calls inside an expression have room for their arguments. -/
def AllRoomy (names : Names) (layout : FrameLayout) (registers : Nat) (e : Expr) : Prop :=
  ∀ part ∈ e.parts, Roomy names layout registers part

/-- The condition under which arguments are generated into the registers from the target on. -/
def ArgumentsFit (names : Names) (layout : FrameLayout) (registers target : Nat)
    (es : List Expr) : Prop :=
  (∀ i e, es[i]? = some e → target + i + need names layout e ≤ registers) ∧ ∀ e ∈ es,
    AllRoomy names layout registers e

theorem argumentsFit_cons {registers target : Nat} {e : Expr} {es : List Expr} :
    ArgumentsFit names layout registers target (e :: es) ↔
      (target + need names layout e ≤ registers ∧ AllRoomy names layout registers e) ∧
        ArgumentsFit names layout registers (target + 1) es := by
  have hindices : (∀ i a, (e :: es)[i]? = some a → target + i + need names layout a ≤ registers) ↔
      target + need names layout e ≤ registers ∧
        ∀ i a, es[i]? = some a → target + 1 + i + need names layout a ≤ registers := by
    constructor
    · intro h
      refine ⟨h 0 e rfl, fun i a ha => ?_⟩
      have := h (i + 1) a ha
      omega
    · rintro ⟨hfirst, hrest⟩ (_ | i) a ha
      · cases ha
        exact hfirst
      · have := hrest i a ha
        omega
  rw [ArgumentsFit, ArgumentsFit, hindices, List.forall_mem_cons]
  tauto

theorem allRoomy_call {registers : Nat} {callee : String} {arguments : List Expr} :
    AllRoomy names layout registers (.call callee arguments) ↔
      arguments.length ≤ registers ∧ ArgumentsFit names layout registers 0 arguments := by
  rw [AllRoomy, Expr.parts, List.forall_mem_cons, Expr.partsOf_eq_flatMap, ArgumentsFit]
  simp only [Roomy, AllRoomy, List.mem_flatMap, Nat.zero_add]
  constructor
  · rintro ⟨⟨hlength, hroom⟩, hparts⟩
    exact ⟨hlength, hroom, fun e he part hpart => hparts part ⟨e, he, hpart⟩⟩
  · rintro ⟨hlength, hroom, hparts⟩
    refine ⟨⟨hlength, hroom⟩, ?_⟩
    rintro part ⟨e, he, hpart⟩
    exact hparts e he part hpart

theorem allRoomy_of_parts {registers : Nat} {e : Expr} {parts : List Expr}
    (hparts : e.parts = e :: parts) (hself : Roomy names layout registers e) :
    AllRoomy names layout registers e ↔ ∀ part ∈ parts, Roomy names layout registers part := by
  rw [AllRoomy, hparts, List.forall_mem_cons]
  exact and_iff_right hself

-- The equations are generated once, in front of the proofs that open them.
attribute [local simp] expr exprs

mutual

/-- An expression is generated if its registers and those of its calls are there. -/
theorem demands_expr : ∀ (e : Expr) (t : Nat), (∀ part ∈ e.parts, Resolves names layout part) →
    Demands c layout (expr c names function e t)
      (t + need names layout e ≤ c.registers ∧ AllRoomy names layout c.registers e)
  | .literal l, t, _ => by
    have hneed : t < c.registers ↔ t + need names layout (.literal l) ≤ c.registers ∧
        AllRoomy names layout c.registers (.literal l) :=
      (and_iff_left (List.forall_mem_singleton.2 trivial)).symm
    cases l with
    | number value | chr byte =>
      rw [expr]
      exact ((demands_register t).finish _).congr hneed
    | str content =>
      rw [expr]
      refine ((demands_register t).bind fun _ => (demands_intern content).finish _).congr ?_
      exact (and_iff_left trivial).trans hneed
  | .lookup name, t, h => by
    obtain ⟨v, hv⟩ := Option.isSome_iff_exists.1 (h _ (Expr.self_mem_parts _))
    rw [expr]
    refine ((demands_register t).bind fun r =>
      .after_variable hv (.pure [Primitive.load r v.place v.datatype.size])).congr ?_
    exact and_congr Iff.rfl (iff_of_true trivial (List.forall_mem_singleton.2 trivial))
  | .index name i, t, h => by
    obtain ⟨hself, hi⟩ := List.forall_mem_cons.1 h
    obtain ⟨v, hv⟩ := Option.isSome_iff_exists.1 hself
    have hpos := need_pos names layout i
    rw [expr]
    refine ((demands_register t).bind fun _ =>
      .after_variable hv ((demands_expr i (t + 1) hi).bind fun _ =>
      (demands_register (t + 1)).bind fun _ =>
        .ite (.pure _) ((demands_register (t + 2)).finish _))).congr ?_
    rw [allRoomy_of_parts (e := .index name i) rfl trivial, need, hv, Option.any_some]
    unfold AllRoomy
    grind
  | .call callee arguments, t, h => by
    obtain ⟨⟨f, hf⟩, harguments⟩ := List.forall_mem_cons.1 h
    rw [expr, hf]
    dsimp only
    refine ((demands_register t).bind fun _ => .after (.pure f) fun f =>
      (demands_noteCallee f.name).after fun _ =>
      .guard ((demands_exprs arguments 0 harguments).finish _)).congr ?_
    rw [allRoomy_call, need]
    exact Iff.rfl
  | .binary op left right, t, h => by
    obtain ⟨hleft, hright⟩ := List.forall_mem_append.1 (List.forall_mem_cons.1 h).2
    have hpos := need_pos names layout right
    rw [expr]
    refine ((demands_register t).bind fun _ => (demands_expr left t hleft).bind fun _ =>
      (demands_expr right (t + 1) hright).bind fun _ =>
        (demands_register (t + 1)).finish _).congr ?_
    rw [allRoomy_of_parts (e := .binary op left right) rfl trivial, List.forall_mem_append, need]
    unfold AllRoomy
    grind
  | .compare op left right, t, h => by
    obtain ⟨hleft, hright⟩ := List.forall_mem_append.1 (List.forall_mem_cons.1 h).2
    rw [expr]
    refine ((demands_register t).bind fun _ => (demands_expr left t hleft).bind fun _ =>
      (demands_expr right (t + 1) hright).bind fun _ => (demands_register (t + 1)).bind fun _ =>
      (demands_register (t + 2)).bind fun _ => demands_freshLabel.finish _).congr ?_
    rw [allRoomy_of_parts (e := .compare op left right) rfl trivial, List.forall_mem_append, need]
    unfold AllRoomy
    grind
  | .unary op operand, t, h => by
    have hpos := need_pos names layout operand
    rw [expr]
    refine ((demands_register t).bind fun _ =>
      (demands_expr operand t (List.forall_mem_cons.1 h).2).finish _).congr ?_
    rw [allRoomy_of_parts (e := .unary op operand) rfl trivial, need]
    unfold AllRoomy
    grind
  | .not operand, t, h => by
    have hpos := need_pos names layout operand
    rw [expr]
    refine ((demands_register t).bind fun _ =>
      (demands_expr operand t (List.forall_mem_cons.1 h).2).finish _).congr ?_
    rw [allRoomy_of_parts (e := .not operand) rfl trivial, need]
    unfold AllRoomy
    grind

/-- Arguments are generated if the registers of each of them are there. -/
theorem demands_exprs :
    ∀ (es : List Expr) (t : Nat), (∀ part ∈ Expr.partsOf es, Resolves names layout part) →
    Demands c layout (exprs c names function es t) (ArgumentsFit names layout c.registers t es)
  | [], t, _ => by
    rw [exprs]
    exact (Demands.pure _).congr (by simp [ArgumentsFit])
  | e :: es, t, h => by
    obtain ⟨he, hes⟩ := List.forall_mem_append.1 h
    rw [exprs]
    exact ((demands_expr e t he).bind fun _ => (demands_exprs es (t + 1) hes).finish _).congr
      argumentsFit_cons.symm

end

/-- A target behind the file fails before anything else is looked at. -/
theorem expr_eq_error (e : Expr) {t : Nat} (h : c.registers ≤ t) (s : GenerateState) :
    expr c names function e t s = .error (.registersExhausted c.registers) := by
  have hregister : register c t s = .error (.registersExhausted c.registers) :=
    (demands_register t).fails s rfl (Nat.not_lt.2 h)
  cases e with
  | literal l => cases l <;> rw [expr] <;> exact Fallible.bind_eq_error.2 (.inl hregister)
  | _ => rw [expr]; exact Fallible.bind_eq_error.2 (.inl hregister)

/-- The registers that a call puts aside are those before its target. -/
theorem map_val_registersBefore {n : Nat} (r : Fin n) :
    (registersBefore r).map Fin.val = List.range r := by
  rw [registersBefore, List.map_take, List.map_coe_finRange_eq_range, List.take_range,
    Nat.min_eq_left r.isLt.le]

/-- An expression whose names and calls have a meaning is generated exactly if the registers it
needs, and those that the arguments of its calls need, are there. Else it fails for lack of
registers. A call puts aside the registers before its target, which are there: a target behind the
file fails first. -/
theorem expr_succeeds_iff_registers {e : Expr} {s : GenerateState}
    (hresolves : ∀ part ∈ e.parts, Resolves names s.layout part) (t : Nat) :
    ((∃ result, expr c names function e t s = .ok result) ↔
      t + need names s.layout e ≤ c.registers ∧ ∀ part ∈ e.parts,
      Roomy names s.layout c.registers part) ∧
    (¬ (t + need names s.layout e ≤ c.registers ∧ ∀ part ∈ e.parts,
      Roomy names s.layout c.registers part) →
      expr c names function e t s = .error (.registersExhausted c.registers)) ∧
    (∀ part target s, c.registers ≤ target →
      expr c names function part target s = .error (.registersExhausted c.registers)) ∧
    ∀ r : Fin c.registers, (registersBefore r).map Fin.val = List.range r := by
  have hdemands : Demands c s.layout (expr c names function e t) _ := demands_expr e t hresolves
  refine ⟨⟨?_, fun h => ?_⟩, hdemands.fails s rfl, fun part _ s h => expr_eq_error part h s,
    map_val_registersBefore⟩
  · rintro ⟨result, hresult⟩
    by_contra hnot
    rw [hdemands.fails s rfl hnot] at hresult
    cases hresult
  · obtain ⟨code, s', hcode, -⟩ := hdemands.succeeds s rfl h
    exact ⟨_, hcode⟩

/-- At the thirteenth register, a sum with a call fits into a file of fourteen registers and not
into one of thirteen. -/
theorem expr_succeeds_iff_registers_sum :
    let names : Names := ⟨.set ∅ "x" .int,
    .set ∅ "g" ⟨"g", {}, [⟨"bit", .int⟩], .int, .assembly ""⟩⟩
    let e : Expr := .binary .add (.literal (.number 1))
      (.call "g" [.index "x" (.literal (.number 0))])
    let s : GenerateState := ⟨0, [], .reserving 0, []⟩
    (∀ part ∈ e.parts, Resolves names s.layout part) ∧
    (∃ result, expr X86.convention names "f" e 12 s = .ok result) ∧
    expr Riscv.convention names "f" e 12 s = .error (.registersExhausted 13) := by
  intro names e s
  have hresolves : ∀ part ∈ e.parts, Resolves names s.layout part := by
    simp only [e, Expr.parts, Expr.partsOf, List.cons_append, List.nil_append, List.forall_mem_cons]
    exact ⟨trivial, trivial, ⟨_, rfl⟩, rfl, trivial, List.forall_mem_nil _⟩
  refine ⟨hresolves, (expr_succeeds_iff_registers hresolves 12).1.2 ⟨by decide, ?_⟩,
    (expr_succeeds_iff_registers hresolves 12).2.1 fun h => absurd h.1 (by decide)⟩
  simp only [e, Expr.parts, Expr.partsOf, List.cons_append, List.nil_append, List.forall_mem_cons]
  refine ⟨trivial, trivial, ⟨by decide, fun i argument h => ?_⟩, trivial, trivial,
    List.forall_mem_nil _⟩
  obtain ⟨rfl, rfl⟩ : i = 0 ∧ argument = .index "x" (.literal (.number 0)) := by grind
  decide

end Firestorm.Native
