import Mathlib.Data.Finset.Lattice.Lemmas
import Firestorm.Proofs.Bytecode.Sections
import Firestorm.Proofs.Interpreter.Variables

/-!
# Declarations on the ways through a function

The interpreter knows a local once its declaration has been executed, the code generators know it
behind the place of its declaration in the text. Which declarations have been executed at some place
of a function depends on the way there: branches may have been left out, and loops come back to a
place with the declarations of earlier rounds. This file computes what is declared on all ways to a
place and what is declared on some way, and says when that makes no difference to the meaning of
names.

## Main definitions

* `Declared`, `Stmt.declares`, `Program.Settled`, `Frame.Extends`, `Declared.Covers`.

## Main results

* `Interpreter.extending`: the frame behind statements has what is declared on the ways through
  them.
-/

namespace Firestorm

open Bytecode

/-- Names that are declared on all ways to a place, and those that are declared on some way. -/
structure Declared where
  always : Finset String
  sometimes : Finset String

variable {a : Declared}

namespace Declared

/-- Nothing is declared. -/
instance : EmptyCollection Declared := ⟨⟨∅, ∅⟩⟩

/-- What two parts declare, one after the other. -/
instance : Append Declared := ⟨fun a b => ⟨a.always ∪ b.always, a.sometimes ∪ b.sometimes⟩⟩

/-- What is declared by one of two parts. -/
def either (a b : Declared) : Declared := ⟨a.always ∩ b.always, a.sometimes ∪ b.sometimes⟩

/-- What any number of rounds of a part declare. -/
def rounds : Option Declared → Declared
  | none => ∅
  | some a => ⟨∅, a.sometimes⟩

/-- Names that are declared. -/
def ofNames (names : List String) : Declared := ⟨names.toFinset, names.toFinset⟩

@[simp] theorem always_append (a b : Declared) : (a ++ b).always = a.always ∪ b.always := rfl

@[simp] theorem sometimes_append (a b : Declared) :
    (a ++ b).sometimes = a.sometimes ∪ b.sometimes := rfl

@[simp] theorem always_empty : (∅ : Declared).always = ∅ := rfl

@[simp] theorem sometimes_empty : (∅ : Declared).sometimes = ∅ := rfl

@[simp] theorem always_rounds (a : Option Declared) : (rounds a).always = ∅ := by
  cases a <;> rfl

@[ext] theorem ext {b : Declared} (halways : a.always = b.always)
    (hsometimes : a.sometimes = b.sometimes) : a = b := by
  cases a
  cases b
  simp_all

@[simp] theorem empty_append (a : Declared) : ∅ ++ a = a := by
  ext1 <;> simp

theorem ofNames_cons (name : String) (names : List String) :
    ofNames (name :: names) = ofNames [name] ++ ofNames names := by
  ext1 <;> simp [ofNames]

/-- More rounds declare nothing new. -/
@[simp] theorem append_rounds_rounds (a : Declared) (b : Option Declared) :
    a ++ rounds b ++ rounds b = a ++ rounds b := by
  ext1 <;> simp [Finset.union_assoc]

/-- The last of some rounds declares what one round declares. -/
@[simp] theorem append_rounds_some (a b : Declared) : a ++ rounds (some b) ++ b = a ++ b := by
  ext1 <;> simp [rounds, Finset.union_assoc]

end Declared

mutual

/-- What is declared on the ways through a statement, if there is such a way. -/
def Stmt.declares : Stmt → Option Declared
  | .declare b _ => some (.ofNames [b.name])
  | .return_ _ | .loop _ => none
  | .ifThen _ body | .while_ _ body => some (.rounds (Stmt.declaresAll body))
  | .ifElse _ body otherwise =>
    (Stmt.declaresAll body).merge Declared.either (Stmt.declaresAll otherwise)
  | .doWhile body _ => Stmt.declaresAll body
  | _ => some ∅

/-- What is declared on the ways through a list of statements, if there is such a way. -/
def Stmt.declaresAll : List Stmt → Option Declared
  | [] => some ∅
  | s :: rest =>
    match Stmt.declares s, Stmt.declaresAll rest with
    | some a, some b => some (a ++ b)
    | _, _ => none

end

/-! ### Settled names -/

/-- A name that stands in the text before a place is declared on all ways there, and one that does
not is declared on no way. -/
structure NameSettled (a : Declared) (scope : List String) (name : String) : Prop where
  always : name ∈ scope → name ∈ a.always
  sometimes : name ∈ a.sometimes → name ∈ scope

/-- The names that an expression reads are settled. -/
def ExprSettled (a : Declared) (scope : List String) (e : Expr) : Prop :=
  ∀ name ∈ e.reads, NameSettled a scope name

mutual

/-- The names of a statement are settled. An initial value is met before the declaration is executed
and behind its place in the text, and the parts of a loop are met behind any number of rounds. -/
def StmtSettled (a : Declared) (scope : List String) : Stmt → Prop
  | .declare b init => ∀ e ∈ init, ExprSettled a (insertName scope b.name) e
  | .assign target value => NameSettled a scope target ∧ ExprSettled a scope value
  | .assignIndexed target i value =>
    NameSettled a scope target ∧ ExprSettled a scope i ∧ ExprSettled a scope value
  | .increment target | .decrement target => NameSettled a scope target
  | .return_ value => ∀ e ∈ value, ExprSettled a scope e
  | .ifThen condition body => ExprSettled a scope condition ∧ BlockSettled a scope body
  | .ifElse condition body otherwise =>
    ExprSettled a scope condition ∧ BlockSettled a scope body ∧
      BlockSettled a (blockScope scope body) otherwise
  | .while_ condition body =>
    ExprSettled (a ++ .rounds (Stmt.declaresAll body)) scope condition ∧
      BlockSettled (a ++ .rounds (Stmt.declaresAll body)) scope body
  | .doWhile body condition =>
    BlockSettled (a ++ .rounds (Stmt.declaresAll body)) scope body ∧
      ∀ b ∈ Stmt.declaresAll body, ExprSettled (a ++ b) (blockScope scope body) condition
  | .loop body => BlockSettled (a ++ .rounds (Stmt.declaresAll body)) scope body
  | .expr e => ExprSettled a scope e

/-- The names of a list of statements are settled, as far as there is a way to them. -/
def BlockSettled (a : Declared) (scope : List String) : List Stmt → Prop
  | [] => True
  | s :: rest => StmtSettled a scope s ∧
      ∀ b ∈ s.declares, BlockSettled (a ++ b) (stmtScope scope s) rest

end

instance (a : Declared) (scope : List String) (name : String) :
    Decidable (NameSettled a scope name) :=
  decidable_of_iff ((name ∈ scope → name ∈ a.always) ∧ (name ∈ a.sometimes → name ∈ scope))
    ⟨fun h => ⟨h.1, h.2⟩, fun h => ⟨h.always, h.sometimes⟩⟩

instance (a : Declared) (scope : List String) (e : Expr) : Decidable (ExprSettled a scope e) :=
  inferInstanceAs (Decidable (∀ name ∈ e.reads, NameSettled a scope name))

mutual

/-- Whether the names of a statement are settled. -/
def decidableStmtSettled (a : Declared) (scope : List String) :
    (st : Stmt) → Decidable (StmtSettled a scope st)
  | .declare b init =>
    inferInstanceAs (Decidable (∀ e ∈ init, ExprSettled a (insertName scope b.name) e))
  | .assign target value =>
    inferInstanceAs (Decidable (NameSettled a scope target ∧ ExprSettled a scope value))
  | .assignIndexed target i value => inferInstanceAs
      (Decidable (NameSettled a scope target ∧ ExprSettled a scope i ∧ ExprSettled a scope value))
  | .increment target | .decrement target =>
    inferInstanceAs (Decidable (NameSettled a scope target))
  | .return_ value => inferInstanceAs (Decidable (∀ e ∈ value, ExprSettled a scope e))
  | .ifThen condition body =>
    have := decidableBlockSettled a scope body
    inferInstanceAs (Decidable (ExprSettled a scope condition ∧ BlockSettled a scope body))
  | .ifElse condition body otherwise =>
    have := decidableBlockSettled a scope body
    have := decidableBlockSettled a (blockScope scope body) otherwise
    inferInstanceAs (Decidable (ExprSettled a scope condition ∧ BlockSettled a scope body ∧
      BlockSettled a (blockScope scope body) otherwise))
  | .while_ condition body =>
    have := decidableBlockSettled (a ++ Declared.rounds (Stmt.declaresAll body)) scope body
    inferInstanceAs (Decidable
      (ExprSettled (a ++ Declared.rounds (Stmt.declaresAll body)) scope condition ∧
      BlockSettled (a ++ Declared.rounds (Stmt.declaresAll body)) scope body))
  | .doWhile body condition =>
    have := decidableBlockSettled (a ++ Declared.rounds (Stmt.declaresAll body)) scope body
    inferInstanceAs (Decidable
      (BlockSettled (a ++ Declared.rounds (Stmt.declaresAll body)) scope body ∧
      ∀ b ∈ Stmt.declaresAll body, ExprSettled (a ++ b) (blockScope scope body) condition))
  | .loop body => decidableBlockSettled (a ++ Declared.rounds (Stmt.declaresAll body)) scope body
  | .expr e => inferInstanceAs (Decidable (ExprSettled a scope e))

/-- Whether the names of a list of statements are settled. -/
def decidableBlockSettled (a : Declared) (scope : List String) :
    (body : List Stmt) → Decidable (BlockSettled a scope body)
  | [] => .isTrue trivial
  | s :: rest =>
    have := decidableStmtSettled a scope s
    have := fun b => decidableBlockSettled (a ++ b) (stmtScope scope s) rest
    inferInstanceAs (Decidable (StmtSettled a scope s ∧
      ∀ b ∈ s.declares, BlockSettled (a ++ b) (stmtScope scope s) rest))

end

instance (a : Declared) (scope : List String) (body : List Stmt) :
    Decidable (BlockSettled a scope body) :=
  decidableBlockSettled a scope body

/-- In the functions that can be reached, a name is met only where its declaration has been executed
on all ways if it stands before in the text, and on no way if it does not. -/
def Program.Settled (p : Program) : Prop :=
  ∀ f ∈ p.functions, p.Reachable f.name → ∀ body, f.body = .statements body →
    BlockSettled (.ofNames (f.parameters.map (·.name))) (bindingsScope [] f.parameters.reverse) body

/-! ### Frames -/

/-- A frame has what is declared on all ways, and nothing but what is declared on some way. -/
structure Declared.Covers (a : Declared) (F : Frame) : Prop where
  always : ∀ name ∈ a.always, (F.get? name).isSome
  sometimes : ∀ name, (F.get? name).isSome → name ∈ a.sometimes

/-- A frame has become another one by declarations. -/
structure Frame.Extends (F : Frame) (a : Declared) (F' : Frame) : Prop where
  always : ∀ name ∈ a.always, (F'.get? name).isSome
  kept : ∀ name, (F.get? name).isSome → (F'.get? name).isSome
  sometimes : ∀ name, (F'.get? name).isSome → (F.get? name).isSome ∨ name ∈ a.sometimes

/-- A name is that of a local of the interpreter if it is in scope. -/
def Agrees (scope : List String) (F : Frame) (name : String) : Prop :=
  (F.get? name).isSome ↔ name ∈ scope

theorem NameSettled.agrees {scope : List String} {F : Frame} {name : String}
    (h : NameSettled a scope name) (hF : a.Covers F) : Agrees scope F name :=
  ⟨fun hname => h.sometimes (hF.sometimes name hname), fun hname => hF.always name (h.always hname)⟩

namespace Frame.Extends

variable {F F' F'' : Frame} {a b : Declared}

theorem refl (F : Frame) : F.Extends ∅ F := ⟨by simp, fun _ => id, fun _ => .inl⟩

theorem trans (h : F.Extends a F') (h' : F'.Extends b F'') : F.Extends (a ++ b) F'' where
  always name hname := by
    rcases Finset.mem_union.1 hname with ha | hb
    · exact h'.kept name (h.always name ha)
    · exact h'.always name hb
  kept name hname := h'.kept name (h.kept name hname)
  sometimes name hname := by
    rcases h'.sometimes name hname with hF' | hb
    · exact (h.sometimes name hF').imp_right fun ha => Finset.mem_union_left _ ha
    · exact .inr (Finset.mem_union_right _ hb)

theorem mono (h : F.Extends a F') (halways : b.always ⊆ a.always)
    (hsometimes : a.sometimes ⊆ b.sometimes) : F.Extends b F' :=
  ⟨fun name hname => h.always name (halways hname), h.kept,
    fun name hname => (h.sometimes name hname).imp_right fun ha => hsometimes ha⟩

/-- One thing declared twice. -/
theorem trans_self (h : F.Extends a F') (h' : F'.Extends a F'') : F.Extends a F'' :=
  (h.trans h').mono (by simp) (by simp)

theorem rounds_refl (F : Frame) (a : Option Declared) : F.Extends (.rounds a) F :=
  (refl F).mono (by simp) (by simp)

theorem rounds (h : F.Extends a F') : F.Extends (.rounds (some a)) F' :=
  h.mono (by simp) (Finset.Subset.refl _)

theorem either_left (h : F.Extends a F') (b : Declared) : F.Extends (a.either b) F' :=
  h.mono Finset.inter_subset_left Finset.subset_union_left

theorem either_right (h : F.Extends b F') (a : Declared) : F.Extends (a.either b) F' :=
  h.mono Finset.inter_subset_right Finset.subset_union_right

theorem set (F : Frame) (name : String) (v : Variable) :
    F.Extends (.ofNames [name]) (F.set name v) where
  always other hother := by
    obtain rfl : other = name := by simpa [Declared.ofNames] using hother
    rw [Table.get?_set_self]
    rfl
  kept other hother := by
    rw [Table.get?_set]
    split
    · rfl
    · exact hother
  sometimes other hother := by
    rw [Table.get?_set] at hother
    split at hother
    · next heq => exact .inr (by simp [Declared.ofNames, heq])
    · exact .inl hother

theorem of_isSome_eq (h : ∀ name, (F'.get? name).isSome = (F.get? name).isSome) : F.Extends ∅ F' :=
  ⟨by simp, fun name hname => h name ▸ hname, fun name hname => .inl (h name ▸ hname)⟩

end Frame.Extends

theorem Declared.Covers.append {b : Declared} {F F' : Frame} (h : a.Covers F)
    (h' : F.Extends b F') : (a ++ b).Covers F' where
  always name hname := by
    rcases Finset.mem_union.1 hname with ha | hb
    · exact h'.kept name (h.always name ha)
    · exact h'.always name hb
  sometimes name hname := by
    rcases h'.sometimes name hname with hF | hb
    · exact Finset.mem_union_left _ (h.sometimes name hF)
    · exact Finset.mem_union_right _ hb

namespace Interpreter

variable {functions : FunctionTable} {fuel : Nat} {F F' : Frame} {m m' : Machine}

theorem extends_of_modifyVariable {name : String} {g : Variable → Word}
    (h : modifyVariable F name g m = (.ok F', m')) : F.Extends ∅ F' := by
  rw [modifyVariable_apply] at h
  cases hframe : F.get? name with
  | some v =>
    rw [hframe] at h
    cases h
    refine .of_isSome_eq fun other => ?_
    rw [Table.get?_set]
    split
    · next heq =>
      rw [heq, hframe]
      rfl
    · rfl
  | none =>
    rw [hframe] at h
    cases hget : m.globals.get? name with
    | some v =>
      rw [hget] at h
      cases h
      exact .refl F
    | none =>
      rw [hget] at h
      cases h

theorem extends_foldl_set (F : Frame) (pairs : List (Binding × Word)) :
    F.Extends (.ofNames (pairs.map (·.1.name)))
      (pairs.foldl (fun F (b, value) => F.set b.name (.holding b.datatype value)) F) := by
  induction pairs generalizing F with
  | nil => exact .refl F
  | cons pair rest ih =>
    rw [List.map_cons, Declared.ofNames_cons]
    exact (Frame.Extends.set F _ _).trans (ih _)

/-- The frame of a function that is entered has the parameters. -/
theorem covers_enter {parameters : List Binding} {values : List Word}
    (hlength : parameters.length = values.length) :
    (Declared.ofNames (parameters.map (·.name))).Covers (enter parameters values) := by
  have hempty : (∅ : Declared).Covers ∅ := ⟨by simp, by simp⟩
  have hcovers := hempty.append (extends_foldl_set ∅ (parameters.zip values))
  rwa [map_fst_name_zip hlength, Declared.empty_append] at hcovers

/-- Statements that do not return go on behind statements that did not. -/
theorem goes_on_eq_ok {x : Exec (Frame × Option Word)} {k : Frame → Exec (Frame × Option Word)}
    (h : (do
      match ← x with
      | (F₁, some value) => return (F₁, some value)
      | (F₁, none) => k F₁) m = (.ok (F', none), m')) :
    ∃ F₁ m₁, x m = (.ok (F₁, none), m₁) ∧ k F₁ m₁ = (.ok (F', none), m') := by
  obtain ⟨⟨F₁, result⟩, m₁, hx, h₁⟩ := Exec.bind_eq_ok.1 h
  cases result with
  | some value => cases (Exec.pure_eq_ok.1 h₁).1
  | none => exact ⟨F₁, m₁, hx, h₁⟩

/-- The frame behind statements that do not return has what is declared on the ways through them. -/
structure Extending (functions : FunctionTable) (fuel : Nat) : Prop where
  stmt : ∀ {F F' : Frame} {st : Stmt} {m m' : Machine},
    execStmt functions fuel F st m = (.ok (F', none), m') → ∃ a,
    st.declares = some a ∧ F.Extends a F'
  block : ∀ {F F' : Frame} {body : List Stmt} {m m' : Machine},
    execBlock functions fuel F body m = (.ok (F', none), m') →
      ∃ a, Stmt.declaresAll body = some a ∧ F.Extends a F'

section

variable (ih : Extending functions fuel)
include ih

theorem extends_of_execBlock_succ {body : List Stmt}
    (h : execBlock functions (fuel + 1) F body m = (.ok (F', none), m')) :
    ∃ a, Stmt.declaresAll body = some a ∧ F.Extends a F' := by
  cases body with
  | nil =>
    rw [execBlock] at h
    obtain ⟨heq, -⟩ := Exec.pure_eq_ok.1 h
    cases heq
    exact ⟨∅, rfl, .refl F⟩
  | cons st rest =>
    rw [execBlock] at h
    obtain ⟨F₁, m₁, hst, h₁⟩ := goes_on_eq_ok h
    obtain ⟨a, ha, hF₁⟩ := ih.stmt hst
    obtain ⟨b, hb, hF'⟩ := ih.block h₁
    exact ⟨a ++ b, by rw [Stmt.declaresAll, ha, hb], hF₁.trans hF'⟩

theorem extends_of_execStmt_succ {st : Stmt}
    (h : execStmt functions (fuel + 1) F st m = (.ok (F', none), m')) :
    ∃ a, st.declares = some a ∧ F.Extends a F' := by
  cases st with
  | declare b init =>
    rw [execStmt_declare] at h
    split at h
    · obtain ⟨value, m₁, -, h₁⟩ := Exec.bind_eq_ok.1 h
      cases (Exec.pure_eq_ok.1 h₁).1
      exact ⟨_, rfl, .set F _ _⟩
    · cases h
  | assign target e =>
    rw [execStmt] at h
    obtain ⟨_, m₁, -, h₁⟩ := Exec.bind_eq_ok.1 h
    obtain ⟨F₁, m₂, hmodify, h₂⟩ := Exec.bind_eq_ok.1 h₁
    cases (Exec.pure_eq_ok.1 h₂).1
    exact ⟨∅, rfl, extends_of_modifyVariable hmodify⟩
  | assignIndexed target i e =>
    rw [execStmt_assignIndexed] at h
    obtain ⟨v, m₁, -, h₁⟩ := Exec.bind_eq_ok.1 h
    split at h₁
    · obtain ⟨p, m₂, -, h₂⟩ := Exec.bind_eq_ok.1 h₁
      cases assignElement_eq_ok h₂
      exact ⟨∅, rfl, .refl F⟩
    · cases h₁
  | increment target | decrement target =>
    rw [execStmt] at h
    obtain ⟨F₁, m₁, hmodify, h₁⟩ := Exec.bind_eq_ok.1 h
    cases (Exec.pure_eq_ok.1 h₁).1
    exact ⟨∅, rfl, extends_of_modifyVariable hmodify⟩
  | return_ value =>
    cases value with
    | none =>
      rw [execStmt] at h
      cases (Exec.pure_eq_ok.1 h).1
    | some e =>
      rw [execStmt] at h
      obtain ⟨_, m₁, -, h₁⟩ := Exec.bind_eq_ok.1 h
      cases (Exec.pure_eq_ok.1 h₁).1
  | ifThen condition body =>
    rw [execStmt] at h
    obtain ⟨_, m₁, -, h₁⟩ := Exec.bind_eq_ok.1 h
    refine ⟨_, rfl, ?_⟩
    split at h₁
    · cases (Exec.pure_eq_ok.1 h₁).1
      exact .rounds_refl F _
    · obtain ⟨a, ha, hF'⟩ := ih.block h₁
      rw [ha]
      exact hF'.rounds
  | ifElse condition body otherwise =>
    rw [execStmt] at h
    obtain ⟨_, m₁, -, h₁⟩ := Exec.bind_eq_ok.1 h
    rw [Stmt.declares]
    split at h₁
    · obtain ⟨b, hb, hF'⟩ := ih.block h₁
      rw [hb]
      cases Stmt.declaresAll body with
      | none => exact ⟨b, rfl, hF'⟩
      | some a => exact ⟨_, rfl, hF'.either_right a⟩
    · obtain ⟨a, ha, hF'⟩ := ih.block h₁
      rw [ha]
      cases Stmt.declaresAll otherwise with
      | none => exact ⟨a, rfl, hF'⟩
      | some b => exact ⟨_, rfl, hF'.either_left b⟩
  | while_ condition body =>
    rw [execStmt] at h
    obtain ⟨_, m₁, -, h₁⟩ := Exec.bind_eq_ok.1 h
    refine ⟨_, rfl, ?_⟩
    split at h₁
    · cases (Exec.pure_eq_ok.1 h₁).1
      exact .rounds_refl F _
    · obtain ⟨F₁, m₂, hbody, h₂⟩ := goes_on_eq_ok h₁
      obtain ⟨a, ha, hF₁⟩ := ih.block hbody
      obtain ⟨_, heq, hF'⟩ := ih.stmt h₂
      cases heq
      rw [ha] at hF' ⊢
      exact hF₁.rounds.trans_self hF'
  | doWhile body condition =>
    rw [execStmt] at h
    obtain ⟨F₁, m₁, hbody, h₁⟩ := goes_on_eq_ok h
    obtain ⟨a, ha, hF₁⟩ := ih.block hbody
    obtain ⟨_, m₂, -, h₂⟩ := Exec.bind_eq_ok.1 h₁
    split at h₂
    · cases (Exec.pure_eq_ok.1 h₂).1
      exact ⟨a, ha, hF₁⟩
    · obtain ⟨b, hb, hF'⟩ := ih.stmt h₂
      rw [Stmt.declares] at hb
      obtain rfl := Option.some_inj.1 (ha.symm.trans hb)
      exact ⟨a, ha, hF₁.trans_self hF'⟩
  | loop body =>
    rw [execStmt] at h
    obtain ⟨F₁, m₁, -, h₁⟩ := goes_on_eq_ok h
    obtain ⟨_, heq, -⟩ := ih.stmt h₁
    cases heq
  | expr e =>
    rw [execStmt] at h
    obtain ⟨_, m₁, -, h₁⟩ := Exec.bind_eq_ok.1 h
    cases (Exec.pure_eq_ok.1 h₁).1
    exact ⟨∅, rfl, .refl F⟩

end

theorem extending (functions : FunctionTable) (fuel : Nat) : Extending functions fuel := by
  induction fuel with
  | zero =>
    refine ⟨fun h => ?_, fun h => ?_⟩
    · rw [execStmt] at h
      cases h
    · rw [execBlock] at h
      cases h
  | succ fuel ih => exact ⟨extends_of_execStmt_succ ih, extends_of_execBlock_succ ih⟩

end Interpreter

end Firestorm
