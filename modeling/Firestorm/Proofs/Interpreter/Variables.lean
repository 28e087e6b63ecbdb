import Mathlib.Data.Nat.Basic
import Mathlib.Order.Basic
import Firestorm.Proofs.Interpreter.Computations
import Firestorm.Proofs.Program.Parts

/-!
# Variables of the interpreter

A name means a local variable if the frame of the function has one, else a global. This file says
what accesses to variables do, and that an expression without calls leaves the globals as they are.

## Main definitions

* `Interpreter.variableOf`, `Interpreter.elementBehind`, `Interpreter.assignBehind`.

## Main results

* `Interpreter.globals_eq_of_eval`, `Interpreter.eval_index_eq`,
  `Interpreter.execStmt_assignIndexed_eq`.
* `Interpreter.lookup_apply`, `Interpreter.modifyVariable_apply`: accesses to variables.
-/

namespace Firestorm.Interpreter

variable {m' : Machine}

-- The equations are generated once, in front of the proofs that open them.
attribute [local simp] eval execStmt

/-- The variable that the interpreter finds under a name. -/
def variableOf (F : Frame) (m : Machine) (name : String) : Option Variable :=
  (F.get? name).or (m.globals.get? name)

theorem lookup_apply (F : Frame) (name : String) (m : Machine) :
    lookup F name m =
      match variableOf F m name with
      | some v => (.ok v, m)
      | none => (.error (.fault (.symbol (.undefined name))), m) := by
  unfold lookup variableOf
  cases F.get? name with
  | some v => rfl
  | none =>
    simp only [Exec.get_bind_apply, Option.none_or]
    cases m.globals.get? name <;> rfl

theorem modifyVariable_apply (F : Frame) (name : String) (g : Variable → Word) (m : Machine) :
    modifyVariable F name g m =
      match F.get? name, m.globals.get? name with
      | some v, _ => (.ok (F.set name (.holding v.datatype (g v))), m)
      | none, some v =>
        (.ok F, { m with globals := m.globals.set name (.holding v.datatype (g v)) })
      | none, none => (.error (.fault (.symbol (.undefined name))), m) := by
  unfold modifyVariable
  cases F.get? name with
  | some v => rfl
  | none =>
    simp only [Exec.get_bind_apply]
    cases m.globals.get? name <;> rfl

theorem lookup_eq_ok {F : Frame} {name : String} {m : Machine} {v : Variable} :
    lookup F name m = (.ok v, m') ↔ variableOf F m name = some v ∧ m' = m := by
  rw [lookup_apply]
  cases variableOf F m name with
  | none => exact iff_of_false nofun nofun
  | some w =>
    constructor
    · intro h
      cases h
      exact ⟨rfl, rfl⟩
    · rintro ⟨⟨⟩, rfl⟩
      rfl

/-- An expression without calls leaves the globals as they are. -/
theorem globals_eq_of_eval {functions : FunctionTable} {fuel : Nat} {F : Frame} {e : Expr}
    {m : Machine} {value : Word} (hcalls : e.callees = [])
    (h : eval functions fuel F e m = (.ok value, m')) : m'.globals = m.globals := by
  induction fuel generalizing e m m' value with
  | zero =>
    rw [eval] at h
    cases h
  | succ fuel ih =>
    cases e with
    | literal l =>
      rw [eval] at h
      obtain ⟨heap, -, rfl⟩ := Exec.onHeap_eq_ok.1 h
      rfl
    | lookup name =>
      rw [eval] at h
      obtain ⟨v, m₁, hlookup, hpure⟩ := Exec.bind_eq_ok.1 h
      rw [← (Exec.pure_eq_ok.1 hpure).2, (lookup_eq_ok.1 hlookup).2]
    | index name i =>
      rw [eval] at h
      obtain ⟨v, m₁, hlookup, h₁⟩ := Exec.bind_eq_ok.1 h
      obtain ⟨x, m₂, hi, h₂⟩ := Exec.bind_eq_ok.1 h₁
      rw [← (lookup_eq_ok.1 hlookup).2, ← ih (e := i) hcalls hi]
      split at h₂
      · rw [Exec.readCell_eq_ok.1 h₂ |>.2]
      · rw [(Exec.pure_eq_ok.1 h₂).2]
    | call callee arguments => cases hcalls
    | binary op left right =>
      rw [eval] at h
      rw [Expr.callees_binary, List.append_eq_nil_iff] at hcalls
      obtain ⟨x, m₁, hleft, h₁⟩ := Exec.bind_eq_ok.1 h
      obtain ⟨y, m₂, hright, h₂⟩ := Exec.bind_eq_ok.1 h₁
      rw [← ih hcalls.1 hleft, ← ih hcalls.2 hright]
      cases hop : op.eval x y with
      | none =>
        rw [hop] at h₂
        cases h₂
      | some result =>
        rw [hop] at h₂
        rw [(Exec.pure_eq_ok.1 h₂).2]
    | compare op left right =>
      rw [eval] at h
      rw [Expr.callees_compare, List.append_eq_nil_iff] at hcalls
      obtain ⟨x, m₁, hleft, h₁⟩ := Exec.bind_eq_ok.1 h
      obtain ⟨y, m₂, hright, h₂⟩ := Exec.bind_eq_ok.1 h₁
      rw [← ih hcalls.1 hleft, ← ih hcalls.2 hright, (Exec.pure_eq_ok.1 h₂).2]
    | unary _ operand | not operand =>
      rw [eval] at h
      obtain ⟨x, m₁, hoperand, h₁⟩ := Exec.bind_eq_ok.1 h
      rw [← ih (e := operand) hcalls hoperand, (Exec.pure_eq_ok.1 h₁).2]

theorem map_fst_name_zip {parameters : List Binding} {values : List Word}
    (h : parameters.length = values.length) :
    (parameters.zip values).map (·.1.name) = parameters.map (·.name) := by
  have hnames := congrArg (List.map (·.name)) (List.map_fst_zip h.le)
  rwa [List.map_map] at hnames

/-! ### Declarations -/

/-- The value of a variable that is declared. -/
def declaredValue (functions : FunctionTable) (fuel : Nat) (F : Frame) : Option Expr → Exec Word
  | some e => eval functions fuel F e
  | none => pure 0

/-- A declaration gives a variable its value if the variable has not been declared with another
datatype. -/
theorem execStmt_declare (functions : FunctionTable) (fuel : Nat) (F : Frame) (b : Binding)
    (init : Option Expr) :
    execStmt functions (fuel + 1) F (.declare b init) =
      if ∀ v ∈ F.get? b.name, v.datatype = b.datatype then do
        let value ← declaredValue functions fuel F init
        return (F.set b.name (.holding b.datatype value), none)
      else Exec.fault (.symbol (.redefined b.name)) := by
  rw [execStmt]
  split
  · next v hv =>
    by_cases hd : v.datatype = b.datatype
    · rw [if_neg (not_not.2 hd), if_pos (by simpa [hv] using hd)]
      cases init <;> rfl
    · rw [if_pos hd, if_neg (by simpa [hv] using hd)]
      rfl
  · next hnone =>
    rw [if_pos (by simp [hnone])]
    cases init <;> rfl

/-! ### Elements -/

/-- The element of a variable at an index, or the bit if it is no array. -/
def element (v : Variable) (index : Word) : Exec Word :=
  if v.datatype.array then Exec.readCell v.value index else return Word.bitTest v.value index

/-- The element of a variable that is read behind its index. -/
def elementBehind (functions : FunctionTable) (fuel : Nat) (F : Frame) (name : String) (i : Expr) :
    Exec Word := do
  let x ← eval functions fuel F i
  element (← lookup F name) x

/-- The values of two expressions. -/
def evalBoth (functions : FunctionTable) (fuel : Nat) (F : Frame) (left right : Expr) :
    Exec (Word × Word) := do
  let x ← eval functions fuel F left
  let y ← eval functions fuel F right
  return (x, y)

/-- Changes the element of a variable at an index. -/
def assignElement (F : Frame) (name : String) (v : Variable) (index value : Word) :
    Exec (Frame × Option Word) := do
  if !v.datatype.array then Exec.fault (.bitAssignment name)
  Exec.writeCell v.value index (v.datatype.element.truncate value)
  return (F, none)

/-- Changes an element of a variable that is read behind the index and the new value. -/
def assignBehind (functions : FunctionTable) (fuel : Nat) (F : Frame) (name : String) (i e : Expr) :
    Exec (Frame × Option Word) := do
  let p ← evalBoth functions fuel F i e
  assignElement F name (← lookup F name) p.1 p.2

section

variable {functions : FunctionTable} {fuel : Nat} {F : Frame} {m : Machine} {v : Variable}
  {name : String} {i e : Expr}

/-- The interpreter reads a variable before its index. -/
theorem eval_index_apply (hv : variableOf F m name = some v) :
    eval functions (fuel + 1) F (.index name i) m = (eval functions fuel F i >>= element v) m := by
  rw [eval, Exec.bind_apply, lookup_eq_ok.2 ⟨hv, rfl⟩]
  rfl

/-- The interpreter reads an array before the index and the new value of its element. -/
theorem execStmt_assignIndexed :
    execStmt functions (fuel + 1) F (.assignIndexed name i e) = lookup F name >>= fun v =>
      if v.datatype.array then evalBoth functions fuel F i e >>= fun p =>
      assignElement F name v p.1 p.2 else Exec.fault (.bitAssignment name) := by
  rw [execStmt]
  refine congrArg (lookup F name >>= ·) (funext fun v => ?_)
  by_cases harray : v.datatype.array = true
  · simp only [harray, evalBoth, assignElement, Bool.not_true, Bool.false_eq_true, if_false,
      if_true, bind_assoc, pure_bind]
  · rw [Bool.not_eq_true] at harray
    simp only [harray]
    rfl

theorem execStmt_assignIndexed_apply (hv : variableOf F m name = some v)
    (harray : v.datatype.array = true) :
    execStmt functions (fuel + 1) F (.assignIndexed name i e) m =
      (evalBoth functions fuel F i e >>= fun p => assignElement F name v p.1 p.2) m := by
  rw [execStmt_assignIndexed, Exec.bind_apply, lookup_eq_ok.2 ⟨hv, rfl⟩]
  simp only [harray, if_true]

theorem assignElement_eq_ok {x y : Word} {result : Frame × Option Word}
    (h : assignElement F name v x y m = (.ok result, m')) : result = (F, none) := by
  unfold assignElement at h
  split at h
  · cases h
  · obtain ⟨_, _, -, h₁⟩ := Exec.bind_eq_ok.1 h
    exact (Exec.pure_eq_ok.1 h₁).1.symm

theorem eval_index_of_none (hv : variableOf F m name = none) :
    eval functions (fuel + 1) F (.index name i) m =
    (.error (.fault (.symbol (.undefined name))), m) := by
  rw [eval, Exec.bind_apply, lookup_apply, hv]

theorem execStmt_assignIndexed_of_none (hv : variableOf F m name = none) :
    execStmt functions (fuel + 1) F (.assignIndexed name i e) m =
      (.error (.fault (.symbol (.undefined name))), m) := by
  rw [execStmt, Exec.bind_apply, lookup_apply, hv]

theorem execStmt_assignIndexed_of_scalar (hv : variableOf F m name = some v)
    (hscalar : v.datatype.array = false) :
    execStmt functions (fuel + 1) F (.assignIndexed name i e) m =
      (.error (.fault (.bitAssignment name)), m) := by
  rw [execStmt_assignIndexed, Exec.bind_apply, lookup_eq_ok.2 ⟨hv, rfl⟩]
  simp only [hscalar]
  rfl

/-- A computation that leaves a variable as it was may stand before the variable is read. -/
theorem bind_eq_bind_lookup {α β : Type} {x : Exec α} {f : Variable → α → Exec β}
    (hleaves : ∀ a m', x m = (.ok a, m') → variableOf F m' name = some v) :
    (x >>= f v) m = (do
      let a ← x
      f (← lookup F name) a) m := by
  rw [Exec.bind_apply, Exec.bind_apply]
  cases hx : x m with
  | mk outcome m' =>
    cases outcome with
    | error _ => rfl
    | ok a =>
      dsimp only
      rw [Exec.bind_apply, lookup_eq_ok.2 ⟨hleaves a m' hx, rfl⟩]

/-- An index that leaves the variable as it was may be evaluated before the variable is read. -/
theorem eval_index_eq (hv : variableOf F m name = some v)
    (hleaves : ∀ x m', eval functions fuel F i m = (.ok x, m') → variableOf F m' name = some v) :
    eval functions (fuel + 1) F (.index name i) m = elementBehind functions fuel F name i m :=
  (eval_index_apply hv).trans (bind_eq_bind_lookup hleaves)

/-- An index and a value that leave the array as it was may be evaluated before it is read. -/
theorem execStmt_assignIndexed_eq (hv : variableOf F m name = some v)
    (harray : v.datatype.array = true)
    (hleaves : ∀ p m', evalBoth functions fuel F i e m = (.ok p, m') →
      variableOf F m' name = some v) :
    execStmt functions (fuel + 1) F (.assignIndexed name i e) m =
      assignBehind functions fuel F name i e m := by
  rw [execStmt_assignIndexed_apply hv harray]
  exact bind_eq_bind_lookup (f := fun v (p : Word × Word) => assignElement F name v p.1 p.2) hleaves

end

end Firestorm.Interpreter
