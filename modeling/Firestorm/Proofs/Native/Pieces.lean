import Firestorm.Proofs.Native.Cascade
import Firestorm.Proofs.Native.Labels
import Firestorm.Proofs.Program.Parts
import Firestorm.Proofs.Symbols.Frames

/-!
# The pieces of native code

The generator puts the code of a function together from pieces, and moves its state on with each of
them. An account of a piece says which numbered labels it defines and jumps to, which strings it
takes the addresses of, which functions it calls and which locals it declares. The account of a
sequence is the accounts of its parts, one behind the other, so that the account of a statement is
read off the text of the generator. It is tidy: the labels are defined once, they have been free
before, and no other labels are jumped to.

Some primitives could ask more of a machine than others. A step could add any number, and a call
could put any number of registers aside. The generator makes little use of this: it steps by one,
and it puts aside registers that are before another one.

## Main definitions

* `Expr.strings`, `Stmt.strings`, `Native.Primitive.Regular`, `Native.Account`, `Native.Emits`,
  `Native.Account.Tidy`, `Native.Emitted`.

## Main results

* `Native.Emits.append`, `Native.emitted_expr`, `Native.emitted_block`, `Native.emitted_parameters`.
-/

namespace Firestorm

/-! ### Strings -/

namespace Expr

/-- The string that an expression is itself. -/
def string? : Expr → Option String
  | .literal (.str content) => some content
  | _ => none

/-- The strings in an expression. -/
def strings (e : Expr) : List String :=
  e.parts.filterMap string?

/-- The strings in a list of expressions. -/
def stringsOf (es : List Expr) : List String :=
  (partsOf es).filterMap string?

section

variable {name : String} {i left right operand : Expr}

@[simp] theorem strings_index : (Expr.index name i).strings = i.strings := rfl

@[simp] theorem strings_call (arguments : List Expr) :
    (Expr.call name arguments).strings = stringsOf arguments := rfl

@[simp] theorem strings_binary (op : BinaryOp) :
    (Expr.binary op left right).strings = left.strings ++ right.strings :=
  List.filterMap_append

@[simp] theorem strings_compare (op : CompareOp) :
    (Expr.compare op left right).strings = left.strings ++ right.strings :=
  List.filterMap_append

@[simp] theorem strings_unary (op : UnaryOp) : (Expr.unary op operand).strings = operand.strings :=
  rfl

@[simp] theorem strings_not : (Expr.not operand).strings = operand.strings := rfl

@[simp] theorem stringsOf_cons (e : Expr) (es : List Expr) :
    stringsOf (e :: es) = e.strings ++ stringsOf es :=
  List.filterMap_append

end

end Expr

namespace Stmt

mutual

/-- The strings in a statement, in the order of its text. -/
def strings : Stmt → List String
  | .declare _ init => init.toList.flatMap Expr.strings
  | .assign _ value => value.strings
  | .assignIndexed _ i value => i.strings ++ value.strings
  | .increment _ | .decrement _ => []
  | .return_ value => value.toList.flatMap Expr.strings
  | .ifThen condition body | .while_ condition body => condition.strings ++ stringsOf body
  | .ifElse condition body otherwise => condition.strings ++ stringsOf body ++ stringsOf otherwise
  | .doWhile body condition => stringsOf body ++ condition.strings
  | .loop body => stringsOf body
  | .expr e => e.strings

/-- The strings in a list of statements. -/
def stringsOf : List Stmt → List String
  | [] => []
  | st :: rest => strings st ++ stringsOf rest

end

/-- The bindings in a statement. -/
def bindings (st : Stmt) : List Binding :=
  st.parts.filterMap binding?

@[simp] theorem bindings_ifElse (condition : Expr) (body otherwise : List Stmt) :
    (Stmt.ifElse condition body otherwise).bindings = bindingsOf body ++ bindingsOf otherwise :=
  List.filterMap_append

@[simp] theorem bindingsOf_nil : bindingsOf [] = [] := rfl

@[simp] theorem bindingsOf_cons (st : Stmt) (body : List Stmt) :
    bindingsOf (st :: body) = st.bindings ++ bindingsOf body :=
  List.filterMap_append

end Stmt

namespace Native

open Fallible

/-- A numbered label inside a function. -/
def innerLabel (function : String) (k : Nat) : String :=
  s!".L{function}.{k}"

/-- A primitive of a function that steps by one, puts aside registers that are not all there are,
and jumps to the exit or to one of the given labels. -/
def Primitive.Regular {n : Nat} (function : String) (targets : List String) : Primitive n → Prop
  | .jump name | .jumpIfZero _ name | .jumpIfNotZero _ name =>
    name = exitLabel function ∨ name ∈ targets
  | .step _ _ delta => delta = 1 ∨ delta = -1
  | .save registers | .restore registers => registers.length < n
  | _ => True

theorem Primitive.Regular.mono {n : Nat} {function : String} {targets targets' : List String}
    {q : Primitive n} (h : q.Regular function targets) (htargets : targets ⊆ targets') :
    q.Regular function targets' := by
  cases q with
  | jump name | jumpIfZero test name | jumpIfNotZero test name =>
    exact h.imp_right fun hname => htargets hname
  | _ => exact h

theorem length_registersBefore {n : Nat} (target : Fin n) :
    (registersBefore target).length < n := by
  simp [registersBefore]

/-! ### Accounts -/

/-- What a piece of code contains: its strings, the functions it calls, the locals it declares, and
the numbers of the labels that it defines and jumps to. -/
structure Account where
  strings : List String := []
  callees : List String := []
  locals : List Binding := []
  defined : List Nat := []
  jumps : List Nat := []

namespace Account

/-- The account of two pieces that follow each other. -/
instance : Append Account where
  append A B := ⟨A.strings ++ B.strings, A.callees ++ B.callees, A.locals ++ B.locals,
    A.defined ++ B.defined, A.jumps ++ B.jumps⟩

variable (A B : Account)

@[simp] theorem strings_append : (A ++ B).strings = A.strings ++ B.strings := rfl

@[simp] theorem callees_append : (A ++ B).callees = A.callees ++ B.callees := rfl

@[simp] theorem locals_append : (A ++ B).locals = A.locals ++ B.locals := rfl

@[simp] theorem defined_append : (A ++ B).defined = A.defined ++ B.defined := rfl

@[simp] theorem jumps_append : (A ++ B).jumps = A.jumps ++ B.jumps := rfl

theorem count_append (k : Nat) : (A ++ B).defined.count k = A.defined.count k + B.defined.count k ∧
    (A ++ B).jumps.count k = A.jumps.count k + B.jumps.count k :=
  ⟨List.count_append, List.count_append⟩

/-- A label is defined once, its number is not below `lo` and below `hi`, and what is jumped to is
defined. -/
def Tidy (lo hi : Nat) (A : Account) : Prop :=
  ∀ k, A.defined.count k ≤ 1 ∧ (0 < A.defined.count k → lo ≤ k ∧ k < hi) ∧
    (0 < A.jumps.count k → 0 < A.defined.count k)

variable {A} in
theorem Tidy.jumps_subset {lo hi : Nat} (h : A.Tidy lo hi) : A.jumps ⊆ A.defined :=
  fun k hk => List.count_pos_iff.1 ((h k).2.2 (List.count_pos_iff.2 hk))

end Account

section

variable {n : Nat} (branches : Bool) (N : Names) (function : String)

/-- The labels that the code of a function may use once the generator is in a state: the exit, the
labels that are jumped to, the strings and the callees so far, and the globals. -/
inductive Uses (jumps : List Nat) (s : GenerateState) : String → Prop
  | exit : Uses jumps s (exitLabel function)
  | inner {k : Nat} (h : k ∈ jumps) : Uses jumps s (innerLabel function k)
  | string {k : Nat} (h : k < s.strings.length) : Uses jumps s (stringLabel k)
  | global {name : String} {d : Datatype} (h : N.globals.get? name = some d) :
    Uses jumps s (globalLabel name)
  | callee {name : String} (h : name ∈ s.callees) : Uses jumps s name

/-- A piece of code with the given account, which has moved the generator from one state to
another. -/
structure Emits (A : Account) (s s' : GenerateState) (code : List (Primitive n)) : Prop where
  nextLabel_le : s.nextLabel ≤ s'.nextLabel
  strings_grow : s.strings <+: s'.strings
  layout_eq : s'.layout = s.layout.afterAll A.locals
  mem_callees_iff : ∀ name, name ∈ s'.callees ↔ name ∈ s.callees ∨ name ∈ A.callees
  resolves : ∀ name ∈ A.callees, ∃ f, N.functions.get? name = some f
  defined_eq : code.flatMap (Primitive.defined branches) = A.defined.map (innerLabel function)
  uses : ∀ label ∈ code.flatMap (Primitive.used branches), Uses N function A.jumps s' label
  mem_strings : ∀ content ∈ A.strings, content ∈ s'.strings
  addresses_eq : ∀ pool, s'.strings <+: pool →
    code.filterMap Primitive.address? = A.strings.map fun content =>
    stringLabel (pool.idxOf content)
  accesses : ∀ access ∈ code.filterMap Primitive.local?, ∃ name slot,
    s'.layout.get? name = some slot ∧ access = (slot.offset, slot.datatype.size)
  isInner_eq : code.all Primitive.isInner = true
  regular : ∀ q ∈ code, q.Regular function (A.jumps.map (innerLabel function))

/-- A piece of code that has a tidy account with the given strings, callees and locals. -/
def Emitted (strings callees : List String) (locals : List Binding) (s s' : GenerateState)
    (code : List (Primitive n)) : Prop :=
  ∃ A : Account, A.strings = strings ∧ (∀ name, name ∈ A.callees ↔ name ∈ callees) ∧
    A.locals = locals ∧ Emits branches N function A s s' code ∧ A.Tidy s.nextLabel s'.nextLabel

end

section

variable {n : Nat} {branches : Bool} {N : Names} {function : String} {s s₁ s' : GenerateState}
  {code : List (Primitive n)}
variable {label name : String} {b : Binding} {slot : Slot}

theorem Uses.mono {jumps jumps' : List Nat} (h : Uses N function jumps s label)
    (hjumps : jumps ⊆ jumps') (hstrings : s.strings <+: s'.strings)
    (hcallees : s.callees ⊆ s'.callees) : Uses N function jumps' s' label := by
  cases h with
  | exit => exact .exit
  | inner h => exact .inner (hjumps h)
  | string h => exact .string (h.trans_le hstrings.length_le)
  | global h => exact .global h
  | callee h => exact .callee (hcallees h)

variable {A : Account}

/-- Accounts of pieces that follow each other. -/
theorem Emits.append {B : Account} {more : List (Primitive n)}
    (h : Emits branches N function A s s₁ code) (h' : Emits branches N function B s₁ s' more) :
    Emits branches N function (A ++ B) s s' (code ++ more) where
  nextLabel_le := h.nextLabel_le.trans h'.nextLabel_le
  strings_grow := h.strings_grow.trans h'.strings_grow
  layout_eq := by rw [h'.layout_eq, h.layout_eq, Account.locals_append, FrameLayout.afterAll_append]
  mem_callees_iff name := by
    rw [h'.mem_callees_iff, h.mem_callees_iff, Account.callees_append, List.mem_append, or_assoc]
  resolves name hname := (List.mem_append.1 hname).elim (h.resolves name) (h'.resolves name)
  defined_eq := by
    rw [List.flatMap_append, h.defined_eq, h'.defined_eq, Account.defined_append, List.map_append]
  uses label hlabel := by
    rw [List.flatMap_append] at hlabel
    rcases List.mem_append.1 hlabel with hlabel | hlabel
    · exact (h.uses label hlabel).mono (List.subset_append_left ..) h'.strings_grow
        fun name hname => (h'.mem_callees_iff name).2 (.inl hname)
    · exact (h'.uses label hlabel).mono (List.subset_append_right ..) (List.prefix_refl _)
        (List.Subset.refl _)
  mem_strings content hcontent := (List.mem_append.1 hcontent).elim
    (fun hcontent => h'.strings_grow.subset (h.mem_strings content hcontent))
    (h'.mem_strings content)
  addresses_eq pool hpool := by
    rw [List.filterMap_append, h.addresses_eq pool (h'.strings_grow.trans hpool),
      h'.addresses_eq pool hpool, Account.strings_append, List.map_append]
  accesses access haccess := by
    rw [List.filterMap_append] at haccess
    rcases List.mem_append.1 haccess with haccess | haccess
    · obtain ⟨name, slot, hslot, heq⟩ := h.accesses access haccess
      exact ⟨name, slot, h'.layout_eq ▸ FrameLayout.get?_afterAll hslot _, heq⟩
    · exact h'.accesses access haccess
  isInner_eq := by rw [List.all_append, h.isInner_eq, h'.isInner_eq, Bool.and_true]
  regular := by
    rw [Account.jumps_append, List.map_append]
    exact List.forall_mem_append.2 ⟨fun q hq => (h.regular q hq).mono (List.subset_append_left ..),
      fun q hq => (h'.regular q hq).mono (List.subset_append_right ..)⟩

/-! ### Pieces of one primitive -/

/-- A piece that leaves the state as it was, and calls and declares nothing. -/
theorem Emits.of_state (hcallees : A.callees = []) (hlocals : A.locals = [])
    (hdefined : code.flatMap (Primitive.defined branches) = A.defined.map (innerLabel function))
    (hused : ∀ label ∈ code.flatMap (Primitive.used branches), Uses N function A.jumps s label)
    (hmem : ∀ content ∈ A.strings, content ∈ s.strings)
    (haddresses : ∀ pool, s.strings <+: pool →
      code.filterMap Primitive.address? = A.strings.map fun content =>
      stringLabel (pool.idxOf content))
    (haccesses : ∀ access ∈ code.filterMap Primitive.local?, ∃ name slot,
      s.layout.get? name = some slot ∧ access = (slot.offset, slot.datatype.size))
    (hinner : code.all Primitive.isInner = true)
    (hregular : ∀ q ∈ code, q.Regular function (A.jumps.map (innerLabel function))) :
    Emits branches N function A s s code :=
  ⟨Nat.le_refl _, List.prefix_refl _, by rw [hlocals, FrameLayout.afterAll_nil], by simp [hcallees],
    by simp [hcallees], hdefined, hused, hmem, haddresses, haccesses, hinner, hregular⟩

theorem emits_nil : Emits branches N function {} s s ([] : List (Primitive n)) :=
  .of_state rfl rfl rfl (by simp) (by simp) (fun _ _ => rfl) (by simp) rfl (List.forall_mem_nil _)

/-- A primitive that has nothing to do with labels, strings and the frame. -/
structure Plain (p : Primitive n) : Prop where
  defined_eq : ∀ branches, p.defined branches = []
  used_eq : ∀ branches, p.used branches = []
  address?_eq : p.address? = none
  local?_eq : p.local? = none
  isInner_eq : p.isInner = true
  regular : ∀ function targets, p.Regular function targets

theorem Plain.emits {p : Primitive n} (h : Plain p) : Emits branches N function {} s s [p] :=
  .of_state rfl rfl (by simp [h.defined_eq]) (by simp [h.used_eq]) (by simp)
    (by simp [h.address?_eq])
    (by simp [h.local?_eq]) (by simp [h.isInner_eq]) (List.forall_mem_singleton.2 (h.regular _ _))

/-- A primitive that does nothing but use a label of the function. -/
theorem emits_jumpTo {p : Primitive n} {k : Nat} (hdefined : p.defined branches = [])
    (hused : p.used branches = [innerLabel function k]) (haddress : p.address? = none)
    (hlocal : p.local? = none) (hinner : p.isInner = true)
    (hregular : p.Regular function [innerLabel function k]) :
    Emits branches N function { jumps := [k] } s s [p] :=
  .of_state rfl rfl (by simp [hdefined]) (by simpa [hused] using .inner (List.mem_singleton_self k))
    (by simp) (by simp [haddress]) (by simp [hlocal]) (by simp [hinner])
    (List.forall_mem_singleton.2 hregular)

theorem emits_jump (k : Nat) :
    Emits branches N function { jumps := [k] } s s
      [(.jump (innerLabel function k) : Primitive n)] :=
  emits_jumpTo rfl rfl rfl rfl rfl (.inr (List.mem_singleton_self _))

theorem emits_jumpIfZero (test : Fin n) (k : Nat) :
    Emits branches N function { jumps := [k] } s s [.jumpIfZero test (innerLabel function k)] :=
  emits_jumpTo rfl rfl rfl rfl rfl (.inr (List.mem_singleton_self _))

theorem emits_jumpIfNotZero (test : Fin n) (k : Nat) :
    Emits branches N function { jumps := [k] } s s [.jumpIfNotZero test (innerLabel function k)] :=
  emits_jumpTo rfl rfl rfl rfl rfl (.inr (List.mem_singleton_self _))

theorem emits_exit : Emits branches N function {} s s
    [(.jump (exitLabel function) : Primitive n)] :=
  .of_state rfl rfl rfl (by simpa [Primitive.used] using .exit) (by simp) (fun _ _ => rfl)
    (by simp [Primitive.local?]) rfl (List.forall_mem_singleton.2 (.inl rfl))

theorem emits_label (k : Nat) :
    Emits branches N function { defined := [k] } s s
      [(.label (innerLabel function k) : Primitive n)] :=
  .of_state rfl rfl rfl (by simp [Primitive.used]) (by simp) (fun _ _ => rfl)
    (by simp [Primitive.local?]) rfl (List.forall_mem_singleton.2 trivial)

theorem emits_compare {op : CompareOp} {target operand scratch : Fin n} (k : Nat) :
    Emits branches N function
      { defined := if branches then [k] else [], jumps := if branches then [k] else [] } s s
      [.compare op target operand scratch (innerLabel function k)] := by
  refine .of_state rfl rfl ?_ ?_ (by simp) (fun _ _ => rfl) (by simp [Primitive.local?]) rfl
    (List.forall_mem_singleton.2 trivial)
  · cases branches <;> rfl
  · cases branches with
    | false => simp [Primitive.used]
    | true => simpa [Primitive.used] using .inner (List.mem_singleton_self k)

theorem emits_call (h : name ∈ s.callees) :
    Emits branches N function {} s s [(.call name : Primitive n)] :=
  .of_state rfl rfl rfl (by simpa [Primitive.used] using .callee h) (by simp) (fun _ _ => rfl)
    (by simp [Primitive.local?]) rfl (List.forall_mem_singleton.2 trivial)

/-- A primitive that reads or writes a variable of some size, wherever it is stored. -/
structure Accesses (size : Nat) (p : Place → Primitive n) : Prop where
  defined_eq : ∀ branches place, (p place).defined branches = []
  used_eq : ∀ branches place, (p place).used branches = place.labels
  address?_eq : ∀ place, (p place).address? = none
  local?_frame : ∀ offset, (p (.frame offset)).local? = some (offset, size)
  local?_data : ∀ label, (p (.data label)).local? = none
  isInner_eq : ∀ place, (p place).isInner = true
  regular : ∀ function targets place, (p place).Regular function targets

theorem accesses_load (target : Fin n) (size : Nat) : Accesses size (.load target · size) :=
  ⟨fun _ _ => rfl, fun _ _ => rfl, fun _ => rfl, fun _ => rfl, fun _ => rfl, fun _ => rfl,
    fun _ _ _ => trivial⟩

theorem accesses_store (value : Fin n) (size : Nat) : Accesses size (.store · value size) :=
  ⟨fun _ _ => rfl, fun _ _ => rfl, fun _ => rfl, fun _ => rfl, fun _ => rfl, fun _ => rfl,
    fun _ _ _ => trivial⟩

theorem accesses_step (size : Nat) {delta : Int} (hdelta : delta = 1 ∨ delta = -1) :
    Accesses size (.step (n := n) · size delta) :=
  ⟨fun _ _ => rfl, fun _ _ => rfl, fun _ => rfl, fun _ => rfl, fun _ => rfl, fun _ => rfl,
    fun _ _ _ => hdelta⟩

/-- The account of an access to a variable. -/
theorem Accesses.emits {p : Place → Primitive n} {v : Variable} (h : Accesses v.datatype.size p)
    (hv : N.variableIn? s.layout name = some v) : Emits branches N function {} s s [p v.place] := by
  unfold Names.variableIn? at hv
  cases hslot : s.layout.get? name with
  | some slot =>
    simp only [hslot] at hv
    cases hv
    exact .of_state rfl rfl (by simp [h.defined_eq]) (by simp [h.used_eq, Place.labels]) (by simp)
      (by simp [h.address?_eq]) (by simpa [h.local?_frame] using ⟨name, slot, hslot, rfl, rfl⟩)
      (by simp [h.isInner_eq]) (List.forall_mem_singleton.2 (h.regular _ _ _))
  | none =>
    simp only [hslot] at hv
    obtain ⟨d, hd, rfl⟩ := Option.map_eq_some_iff.1 hv
    exact .of_state rfl rfl (by simp [h.defined_eq])
      (by simpa [h.used_eq, Place.labels] using .global hd) (by simp) (by simp [h.address?_eq])
      (by simp [h.local?_data]) (by simp [h.isInner_eq])
        (List.forall_mem_singleton.2 (h.regular _ _ _))

/-! ### Steps of the generator without code -/

theorem label_of_freshLabel (h : freshLabel function s = .ok (label, s')) :
    label = innerLabel function s.nextLabel ∧ s'.nextLabel = s.nextLabel + 1 := by
  cases modifyGet_eq_ok.1 h
  exact ⟨rfl, rfl⟩

theorem emits_freshLabel (h : freshLabel function s = .ok (label, s')) :
    Emits branches N function {} s s' ([] : List (Primitive n)) := by
  cases modifyGet_eq_ok.1 h
  exact ⟨Nat.le_succ _, List.prefix_refl _, rfl, by simp, by simp, rfl, by simp, by simp,
    fun _ _ => rfl, by simp, rfl, List.forall_mem_nil _⟩

theorem emits_noteCallee {f : FunctionDef} {u : Unit} (hf : N.functions.get? name = some f)
    (h : noteCallee name s = .ok (u, s')) :
    Emits branches N function { callees := [name] } s s' ([] : List (Primitive n)) := by
  obtain rfl := noteCallee_eq_ok h
  exact ⟨Nat.le_refl _, List.prefix_refl _,
    rfl, by simp [or_comm], by simpa using ⟨f, hf⟩, rfl, by simp,
    by simp, fun _ _ => rfl, by simp, rfl, List.forall_mem_nil _⟩

theorem declareLocal_eq_ok (h : declareLocal b s = .ok (slot, s')) :
    ∃ layout, s.layout.declare b = .ok (slot, layout) ∧ s' = { s with layout } := by
  simp only [declareLocal, bind_eq_ok, pure_eq_ok] at h
  obtain ⟨_, s₁, hget, ⟨slot', layout⟩, s₂, hdeclare, _, s₃, hmodify, rfl, rfl⟩ := h
  cases get_eq_ok.1 hget
  obtain ⟨hdeclare, rfl⟩ := ofSymbols_eq_ok.1 hdeclare
  cases modify_eq_ok.1 hmodify
  exact ⟨layout, hdeclare, rfl⟩

theorem emits_declareLocal (h : declareLocal b s = .ok (slot, s')) :
    Emits branches N function { locals := [b] } s s' ([] : List (Primitive n)) := by
  obtain ⟨layout, hdeclare, rfl⟩ := declareLocal_eq_ok h
  exact ⟨Nat.le_refl _, List.prefix_refl _, (FrameLayout.after_of_declare hdeclare).symm, by simp,
    by simp, rfl, by simp, by simp, fun _ _ => rfl, by simp, rfl, List.forall_mem_nil _⟩

theorem variableIn?_of_declareLocal (N : Names) (h : declareLocal b s = .ok (slot, s')) :
    N.variableIn? s'.layout b.name = some ⟨slot.datatype, .frame slot.offset⟩ := by
  obtain ⟨layout, hdeclare, rfl⟩ := declareLocal_eq_ok h
  simp only [Names.variableIn?, (FrameLayout.get?_of_declare hdeclare).1]

theorem mem_of_internInto {strings strings' : List String} {content : String} {i : Nat}
    (h : internInto strings content = (i, strings')) : content ∈ strings' := by
  unfold internInto at h
  split at h
  · next index hindex =>
    cases h
    rw [← List.isSome_idxOf?, hindex]
    rfl
  · cases h
    exact List.mem_append_right _ (List.mem_singleton_self _)

/-- The account of a string. -/
theorem emits_intern {content : String} {target : Fin n} (h : intern content s = .ok (label, s')) :
    Emits branches N function { strings := [content] } s s' [.loadAddress target label] := by
  unfold intern at h
  have h := modifyGet_eq_ok.1 h
  cases hi : internInto s.strings content with
  | mk i strings =>
    simp only [hi, Prod.mk.injEq] at h
    obtain ⟨rfl, rfl⟩ := h
    have hmem := mem_of_internInto hi
    obtain ⟨hidx, hgrow⟩ := idxOf_of_internInto hi (List.prefix_refl _)
    refine ⟨Nat.le_refl _, hgrow,
      rfl, by simp, by simp, rfl, ?_, by simpa using hmem, fun pool hpool => ?_,
      by simp [Primitive.local?], rfl, List.forall_mem_singleton.2 trivial⟩
    · simpa [Primitive.used] using .string (hidx ▸ List.idxOf_lt_length_of_mem hmem)
    · exact congrArg (fun k => [stringLabel k]) (idxOf_of_internInto hi hpool).1.symm

/-! ### Tidy accounts -/

theorem Emits.counts {A : Account} (h : Emits branches N function A s s' code)
    (htidy : A.Tidy s.nextLabel s'.nextLabel) (k : Nat) : s.nextLabel ≤ s'.nextLabel ∧
      A.defined.count k ≤ 1 ∧ (0 < A.defined.count k → s.nextLabel ≤ k ∧ k < s'.nextLabel) ∧
        (0 < A.jumps.count k → 0 < A.defined.count k) :=
  ⟨h.nextLabel_le, htidy k⟩

theorem Emits.emitted (h : Emits branches N function A s s' code) (hdefined : A.defined = [])
    (hjumps : A.jumps = []) : Emitted branches N function A.strings A.callees A.locals s s' code :=
  ⟨A, rfl, fun _ => Iff.rfl, rfl, h, fun k => by simp [hdefined, hjumps]⟩

theorem Plain.emitted {p : Primitive n} (h : Plain p) :
    Emitted branches N function [] [] [] s s [p] :=
  h.emits.emitted rfl rfl

/-- Pieces that follow each other. -/
theorem Emitted.append {strings strings' callees callees' : List String}
    {locals locals' : List Binding} {more : List (Primitive n)}
    (h : Emitted branches N function strings callees locals s s₁ code)
    (h' : Emitted branches N function strings' callees' locals' s₁ s' more) :
    Emitted branches N function (strings ++ strings') (callees ++ callees') (locals ++ locals') s s'
      (code ++ more) := by
  obtain ⟨A, rfl, hcallees, rfl, hA, htidy⟩ := h
  obtain ⟨B, rfl, hcallees', rfl, hB, htidy'⟩ := h'
  refine ⟨A ++ B, rfl, fun name => ?_, rfl, hA.append hB, fun k => ?_⟩
  · rw [Account.callees_append, List.mem_append, List.mem_append, hcallees, hcallees']
  · have hk := hA.counts htidy k
    have hk' := hB.counts htidy' k
    simp only [Account.count_append]
    omega

end

/-! ### Expressions -/

section

variable (c : Convention) (branches : Bool) (N : Names) (function : String)

/-- Whatever code is generated for an expression has an account. -/
def ExprEmitted (e : Expr) : Prop :=
  ∀ (t : Nat) (s s' : GenerateState) (code : List (Primitive c.registers)),
    expr c N function e t s = .ok (code, s') →
    Emitted branches N function e.strings e.callees [] s s' code

/-- Whatever code is generated for arguments has an account. -/
def ExprsEmitted (es : List Expr) : Prop :=
  ∀ (t : Nat) (s s' : GenerateState) (code : List (Primitive c.registers)),
    exprs c N function es t s = .ok (code, s') →
      Emitted branches N function (Expr.stringsOf es) (Expr.calleesOf es) [] s s' code

/-- Whatever code is generated for a statement has an account. -/
def StmtEmitted (st : Stmt) : Prop :=
  ∀ (s s' : GenerateState) (code : List (Primitive c.registers)),
    stmt c N function st s = .ok (code, s') →
    Emitted branches N function st.strings st.callees st.bindings s s' code

/-- Whatever code is generated for statements has an account. -/
def BlockEmitted (body : List Stmt) : Prop :=
  ∀ (s s' : GenerateState) (code : List (Primitive c.registers)),
    block c N function body s = .ok (code, s') →
    Emitted branches N function (Stmt.stringsOf body) (Stmt.calleesOf body) (Stmt.bindingsOf body)
      s s' code

end

section

variable {c : Convention} {branches : Bool} {N : Names} {function : String}

theorem emitted_literal {value : Literal} : ExprEmitted c branches N function (.literal value) := by
  intro target s s' code h
  cases value with
  | number value | chr byte =>
    simp only [expr, bind_eq_ok, pure_eq_ok, register_eq_ok] at h
    obtain ⟨r, s₁, ⟨-, rfl⟩, rfl, rfl⟩ := h
    exact Plain.emitted ⟨fun _ => rfl, fun _ => rfl, rfl, rfl, rfl, fun _ _ => trivial⟩
  | str content =>
    simp only [expr, bind_eq_ok, pure_eq_ok, register_eq_ok] at h
    obtain ⟨r, s₁, ⟨-, rfl⟩, label, s₂, hlabel, rfl, rfl⟩ := h
    exact (emits_intern hlabel).emitted rfl rfl

theorem emitted_lookup {name : String} : ExprEmitted c branches N function (.lookup name) := by
  intro target s s' code h
  simp only [expr, bind_eq_ok, pure_eq_ok, register_eq_ok] at h
  obtain ⟨r, s₁, ⟨-, rfl⟩, v, s₂, hv, rfl, rfl⟩ := h
  obtain ⟨hv, rfl⟩ := variableOf_eq_ok hv
  exact ((accesses_load r _).emits hv).emitted rfl rfl

theorem emitted_index {name : String} {i : Expr} (ih : ExprEmitted c branches N function i) :
    ExprEmitted c branches N function (.index name i) := by
  intro target s s' code h
  simp only [expr, bind_eq_ok, register_eq_ok] at h
  obtain ⟨r, s₁, ⟨-, rfl⟩, v, s₂, hv, inner, s₃, hi, r', s₄, ⟨-, rfl⟩, h⟩ := h
  obtain ⟨hv, rfl⟩ := variableOf_eq_ok hv
  have hload : Emitted branches N function [] []
      [] _ _ [Primitive.load r v.place v.datatype.size] :=
    ((accesses_load r _).emits hv).emitted rfl rfl
  have hlast {p : Primitive c.registers} (hp : Plain p) :
      Emitted branches N function (Expr.index name i).strings (Expr.index name i).callees [] s₂ s₄
        ([Primitive.load r v.place v.datatype.size] ++ inner ++ [p]) := by
    simpa using (hload.append (ih _ _ _ _ hi)).append hp.emitted
  split at h
  · obtain ⟨rfl, rfl⟩ := pure_eq_ok.1 h
    exact hlast ⟨fun _ => rfl, fun _ => rfl, rfl, rfl, rfl, fun _ _ => trivial⟩
  · simp only [bind_eq_ok, pure_eq_ok, register_eq_ok] at h
    obtain ⟨r'', s₅, ⟨-, rfl⟩, rfl, rfl⟩ := h
    exact hlast ⟨fun _ => rfl, fun _ => rfl, rfl, rfl, rfl, fun _ _ => trivial⟩

theorem emitted_call (hN : N.Keyed) {callee : String} {arguments : List Expr}
    (ih : ExprsEmitted c branches N function arguments) :
    ExprEmitted c branches N function (.call callee arguments) := by
  intro target s s' code h
  simp only [expr, bind_eq_ok, unless_eq_ok, pure_eq_ok, register_eq_ok] at h
  obtain ⟨r, s₁, ⟨-, rfl⟩, f, s₂, hf, _, s₃, hnote, -, inner, s₄, harguments, rfl, rfl⟩ := h
  obtain ⟨hresolve, rfl⟩ := ofSymbols_eq_ok.1 hf
  have hget := (FunctionTable.resolve_eq_ok.1 hresolve).1
  obtain rfl := hN _ _ hget
  have hnoted : Emitted branches N function [] [f.name]
      [] _ _ ([] : List (Primitive c.registers)) :=
    (emits_noteCallee hget hnote).emitted rfl rfl
  have hinner := ih _ _ _ _ harguments
  have hcall : f.name ∈ s₄.callees := by
    obtain ⟨A, -, -, -, hA, -⟩ := hinner
    rw [hA.mem_callees_iff, noteCallee_eq_ok hnote]
    exact .inl (List.mem_cons_self ..)
  have hmoved : Emitted branches N function [] [] [] s₄ s₄
      (if target = 0 then [] else [Primitive.copy r (result c)]) := by
    split
    · exact emits_nil.emitted rfl rfl
    · exact Plain.emitted ⟨fun _ => rfl, fun _ => rfl, rfl, rfl, rfl, fun _ _ => trivial⟩
  have hbefore (function : String) (targets : List String) :
      (Primitive.save (registersBefore r)).Regular function targets := length_registersBefore r
  have hsave : Plain (.save (registersBefore r)) :=
    ⟨fun _ => rfl, fun _ => rfl, rfl, rfl, rfl, hbefore⟩
  have hrestore : Plain (.restore (registersBefore r)) :=
    ⟨fun _ => rfl, fun _ => rfl, rfl, rfl, rfl, hbefore⟩
  have hall := (((hnoted.append hsave.emitted).append hinner).append
    ((emits_call hcall).emitted rfl rfl)).append (hmoved.append hrestore.emitted)
  simpa using hall

theorem emitted_binary {op : BinaryOp} {left right : Expr}
    (ihl : ExprEmitted c branches N function left) (ihr : ExprEmitted c branches N function right) :
    ExprEmitted c branches N function (.binary op left right) := by
  intro target s s' code h
  simp only [expr, bind_eq_ok, pure_eq_ok, register_eq_ok] at h
  obtain ⟨r, s₁, ⟨-, rfl⟩, a, s₂, ha, b, s₃, hb, r', s₄, ⟨-, rfl⟩, rfl, rfl⟩ := h
  have hop : Plain (.binary op r r') :=
    ⟨fun _ => rfl, fun _ => rfl, rfl, rfl, rfl, fun _ _ => trivial⟩
  simpa using ((ihl _ _ _ _ ha).append (ihr _ _ _ _ hb)).append hop.emitted

theorem emitted_compare {op : CompareOp} {left right : Expr}
    (ihl : ExprEmitted c branches N function left) (ihr : ExprEmitted c branches N function right) :
    ExprEmitted c branches N function (.compare op left right) := by
  intro target s s' code h
  simp only [expr, bind_eq_ok, pure_eq_ok, register_eq_ok] at h
  obtain ⟨r, s₁, ⟨-, rfl⟩, a, s₂, ha, b, s₃, hb, r', s₄, ⟨-, rfl⟩, r'', s₅, ⟨-, rfl⟩, label, s₆,
      hlabel, rfl, rfl⟩ := h
  obtain ⟨rfl, hnext⟩ := label_of_freshLabel hlabel
  have hop : Emitted branches N function [] [] [] s₅ s₆
      [Primitive.compare op r r' r'' (innerLabel function s₅.nextLabel)] := by
    refine ⟨_, rfl, fun _ => Iff.rfl, rfl, (emits_freshLabel hlabel).append (emits_compare _),
      fun k => ?_⟩
    cases branches with
    | false => simp
    | true =>
      simp only [Account.count_append, List.count_singleton, beq_iff_eq, List.count_nil, if_true]
      split_ifs <;> omega
  simpa using ((ihl _ _ _ _ ha).append (ihr _ _ _ _ hb)).append hop

theorem emitted_unary {op : UnaryOp} {operand : Expr}
    (ih : ExprEmitted c branches N function operand) :
    ExprEmitted c branches N function (.unary op operand) := by
  intro target s s' code h
  simp only [expr, bind_eq_ok, pure_eq_ok, register_eq_ok] at h
  obtain ⟨r, s₁, ⟨-, rfl⟩, a, s₂, ha, rfl, rfl⟩ := h
  have hop : Plain (.unary op r) := ⟨fun _ => rfl, fun _ => rfl, rfl, rfl, rfl, fun _ _ => trivial⟩
  simpa using (ih _ _ _ _ ha).append hop.emitted

theorem emitted_not {operand : Expr} (ih : ExprEmitted c branches N function operand) :
    ExprEmitted c branches N function (.not operand) := by
  intro target s s' code h
  simp only [expr, bind_eq_ok, pure_eq_ok, register_eq_ok] at h
  obtain ⟨r, s₁, ⟨-, rfl⟩, a, s₂, ha, rfl, rfl⟩ := h
  have hop : Plain (.not r) := ⟨fun _ => rfl, fun _ => rfl, rfl, rfl, rfl, fun _ _ => trivial⟩
  simpa using (ih _ _ _ _ ha).append hop.emitted

mutual

/-- The account of an expression. -/
theorem emitted_expr (hN : N.Keyed) : ∀ e : Expr, ExprEmitted c branches N function e
  | .literal _ => emitted_literal
  | .lookup _ => emitted_lookup
  | .index _ i => emitted_index (emitted_expr hN i)
  | .call _ arguments => emitted_call hN (emitted_exprs hN arguments)
  | .binary _ left right => emitted_binary (emitted_expr hN left) (emitted_expr hN right)
  | .compare _ left right => emitted_compare (emitted_expr hN left) (emitted_expr hN right)
  | .unary _ operand => emitted_unary (emitted_expr hN operand)
  | .not operand => emitted_not (emitted_expr hN operand)

/-- The account of arguments. -/
theorem emitted_exprs (hN : N.Keyed) : ∀ es : List Expr, ExprsEmitted c branches N function es
  | [], _, _, _, _, h => by
    simp only [exprs, pure_eq_ok] at h
    obtain ⟨rfl, rfl⟩ := h
    exact emits_nil.emitted rfl rfl
  | e :: es, _, _, _, _, h => by
    simp only [exprs, bind_eq_ok, pure_eq_ok] at h
    obtain ⟨a, s₁, ha, b, s₂, hb, rfl, rfl⟩ := h
    simpa using (emitted_expr hN e _ _ _ _ ha).append (emitted_exprs hN es _ _ _ _ hb)

end

/-! ### Statements -/

section

attribute [local simp] Stmt.strings Stmt.callees Stmt.bindings Stmt.parts Stmt.operands
  Stmt.binding? Stmt.calleesOf Stmt.bindingsOf List.filterMap_cons

theorem emitted_declare (hN : N.Keyed) {b : Binding} {init : Option Expr} :
    StmtEmitted c branches N function (.declare b init) := by
  intro s s' code h
  have hstore {slot : Slot} {s₁ s₂ : GenerateState} (hdeclare : declareLocal b s = .ok (slot, s₁))
      (hlayout : s₂.layout = s₁.layout) : Emitted branches N function [] [] [] s₂ s₂
        [Primitive.store (.frame slot.offset) (result c) slot.datatype.size] := by
    have hv := variableIn?_of_declareLocal N hdeclare
    rw [← hlayout] at hv
    exact ((accesses_store (result c) _).emits hv).emitted rfl rfl
  cases init with
  | none =>
    simp only [stmt, bind_eq_ok, pure_eq_ok] at h
    obtain ⟨slot, s₁, hdeclare, _, _, ⟨rfl, rfl⟩, rfl, rfl⟩ := h
    have hzero : Plain (.loadConst (result c) 0) :=
      ⟨fun _ => rfl, fun _ => rfl, rfl, rfl, rfl, fun _ _ => trivial⟩
    simpa using (((emits_declareLocal hdeclare).emitted rfl rfl).append hzero.emitted).append
      (hstore hdeclare rfl)
  | some e =>
    simp only [stmt, bind_eq_ok, pure_eq_ok] at h
    obtain ⟨slot, s₁, hdeclare, a, s₂, ha, rfl, rfl⟩ := h
    have hlayout : s₂.layout = s₁.layout := (delivers hN e _ _ _ _ ha).layout_eq
    simpa using (((emits_declareLocal hdeclare).emitted rfl rfl).append
      (emitted_expr hN e _ _ _ _ ha)).append (hstore hdeclare hlayout)

theorem emitted_assign (hN : N.Keyed) {name : String} {value : Expr} :
    StmtEmitted c branches N function (.assign name value) := by
  intro s s' code h
  simp only [stmt, bind_eq_ok, pure_eq_ok] at h
  obtain ⟨v, s₁, hv, a, s₂, ha, rfl, rfl⟩ := h
  obtain ⟨hv, rfl⟩ := variableOf_eq_ok hv
  rw [← (delivers hN value _ _ _ _ ha).layout_eq] at hv
  simpa using (emitted_expr hN value _ _ _ _ ha).append
    (((accesses_store (result c) _).emits hv).emitted rfl rfl)

theorem emitted_assignIndexed (hN : N.Keyed) {name : String} {i value : Expr} :
    StmtEmitted c branches N function (.assignIndexed name i value) := by
  intro s s' code h
  simp only [stmt, bind_eq_ok, unless_eq_ok, pure_eq_ok, register_eq_ok] at h
  obtain ⟨v, s₁, hv, -, a, s₂, ha, b, s₃, hb, r, s₄, ⟨-, rfl⟩, r', s₅, ⟨-, rfl⟩, rfl, rfl⟩ := h
  obtain ⟨hv, rfl⟩ := variableOf_eq_ok hv
  rw [← (delivers hN i _ _ _ _ ha).layout_eq, ← (delivers hN value _ _ _ _ hb).layout_eq] at hv
  have helement : Plain (.storeElement r' (result c) r v.datatype.elementSize) :=
    ⟨fun _ => rfl, fun _ => rfl, rfl, rfl, rfl, fun _ _ => trivial⟩
  simpa using ((emitted_expr hN i _ _ _ _ ha).append (emitted_expr hN value _ _ _ _ hb)).append
    ((((accesses_load r' _).emits hv).emitted rfl rfl).append helement.emitted)

theorem emitted_step {name : String} {delta : Int} (hdelta : delta = 1 ∨ delta = -1) {v : Variable}
    {s s' : GenerateState} (hv : variableOf N name s = .ok (v, s')) :
    Emitted branches N function [] [] [] s s'
      [(.step v.place v.datatype.size delta : Primitive c.registers)] := by
  obtain ⟨hv, rfl⟩ := variableOf_eq_ok hv
  exact ((accesses_step _ hdelta).emits hv).emitted rfl rfl

theorem emitted_return (hN : N.Keyed) {value : Option Expr} :
    StmtEmitted c branches N function (.return_ value) := by
  intro s s' code h
  have hjump {s₁ : GenerateState} : Emitted branches N function [] [] [] s₁ s₁
      [(.jump (exitLabel function) : Primitive c.registers)] := emits_exit.emitted rfl rfl
  cases value with
  | none =>
    simp only [stmt, pure_eq_ok] at h
    obtain ⟨rfl, rfl⟩ := h
    have hzero : Plain (.loadConst (result c) 0) :=
      ⟨fun _ => rfl, fun _ => rfl, rfl, rfl, rfl, fun _ _ => trivial⟩
    simpa using hzero.emitted.append hjump
  | some e =>
    simp only [stmt, bind_eq_ok, pure_eq_ok] at h
    obtain ⟨a, s₁, ha, rfl, rfl⟩ := h
    simpa using (emitted_expr hN e _ _ _ _ ha).append hjump

theorem emitted_discarded (hN : N.Keyed) {e : Expr} :
    StmtEmitted c branches N function (.expr e) := by
  intro s s' code h
  simp only [stmt] at h
  simpa using emitted_expr hN e _ _ _ _ h

theorem emitted_ifThen (hN : N.Keyed) {condition : Expr} {body : List Stmt}
    (ih : BlockEmitted c branches N function body) :
    StmtEmitted c branches N function (.ifThen condition body) := by
  intro s s' code h
  simp only [stmt, bind_eq_ok, pure_eq_ok] at h
  obtain ⟨_, s₁, hl, test, s₂, htest, b, s₃, hb, rfl, rfl⟩ := h
  obtain ⟨rfl, hnext⟩ := label_of_freshLabel hl
  obtain ⟨A, hAs, hAc, hAl, hA, htidyA⟩ := emitted_expr hN condition _ _ _ _ htest
  obtain ⟨B, hBs, hBc, hBl, hB, htidyB⟩ := ih _ _ _ hb
  refine ⟨_, ?_, ?_, ?_, ((((emits_freshLabel hl).append hA).append
    (emits_jumpIfZero (result c) s.nextLabel)).append hB).append (emits_label s.nextLabel),
    fun k => ?_⟩
  · simp [hAs, hBs]
  · simp [hAc, hBc]
  · simp [hAl, hBl]
  · have hkA := hA.counts htidyA k
    have hkB := hB.counts htidyB k
    simp only [Account.count_append, List.count_singleton, beq_iff_eq, List.count_nil]
    split_ifs <;> omega

theorem emitted_ifElse (hN : N.Keyed) {condition : Expr} {body otherwise : List Stmt}
    (ih : BlockEmitted c branches N function body)
    (ih' : BlockEmitted c branches N function otherwise) :
    StmtEmitted c branches N function (.ifElse condition body otherwise) := by
  intro s s' code h
  simp only [stmt, bind_eq_ok, pure_eq_ok] at h
  obtain ⟨_, s₁, hl, test, s₂, htest, b, s₃, hb, _, s₄, hl', o, s₅, ho, rfl, rfl⟩ := h
  obtain ⟨rfl, hnext⟩ := label_of_freshLabel hl
  obtain ⟨rfl, hnext'⟩ := label_of_freshLabel hl'
  obtain ⟨A, hAs, hAc, hAl, hA, htidyA⟩ := emitted_expr hN condition _ _ _ _ htest
  obtain ⟨B, hBs, hBc, hBl, hB, htidyB⟩ := ih _ _ _ hb
  obtain ⟨C, hCs, hCc, hCl, hC, htidyC⟩ := ih' _ _ _ ho
  have hfirst := (((emits_freshLabel hl).append hA).append
    (emits_jumpIfZero (result c) s.nextLabel)).append hB
  have hmiddle := hfirst.append
    ((emits_freshLabel hl').append ((emits_jump s₃.nextLabel).append (emits_label s.nextLabel)))
  refine ⟨_, ?_, ?_, ?_, (hmiddle.append hC).append (emits_label s₃.nextLabel), fun k => ?_⟩
  · simp [hAs, hBs, hCs]
  · simp [hAc, hBc, hCc]
  · simp [hAl, hBl, hCl]
  · have hkA := hA.counts htidyA k
    have hkB := hB.counts htidyB k
    have hkC := hC.counts htidyC k
    simp only [Account.count_append, List.count_singleton, beq_iff_eq, List.count_nil]
    split_ifs <;> omega

theorem emitted_while (hN : N.Keyed) {condition : Expr} {body : List Stmt}
    (ih : BlockEmitted c branches N function body) :
    StmtEmitted c branches N function (.while_ condition body) := by
  intro s s' code h
  simp only [stmt, bind_eq_ok, pure_eq_ok] at h
  obtain ⟨_, s₁, hl, _, s₂, hl', test, s₃, htest, b, s₄, hb, rfl, rfl⟩ := h
  obtain ⟨rfl, hnext⟩ := label_of_freshLabel hl
  obtain ⟨rfl, hnext'⟩ := label_of_freshLabel hl'
  obtain ⟨A, hAs, hAc, hAl, hA, htidyA⟩ := emitted_expr hN condition _ _ _ _ htest
  obtain ⟨B, hBs, hBc, hBl, hB, htidyB⟩ := ih _ _ _ hb
  have hfirst := (((emits_freshLabel hl).append (emits_freshLabel hl')).append
    (emits_label s.nextLabel)).append hA
  refine ⟨_, ?_, ?_, ?_,
    ((hfirst.append (emits_jumpIfZero (result c) s₁.nextLabel)).append hB).append
    ((emits_jump s.nextLabel).append (emits_label s₁.nextLabel)), fun k => ?_⟩
  · simp [hAs, hBs]
  · simp [hAc, hBc]
  · simp [hAl, hBl]
  · have hkA := hA.counts htidyA k
    have hkB := hB.counts htidyB k
    simp only [Account.count_append, List.count_singleton, beq_iff_eq, List.count_nil]
    split_ifs <;> omega

theorem emitted_doWhile (hN : N.Keyed) {body : List Stmt} {condition : Expr}
    (ih : BlockEmitted c branches N function body) :
    StmtEmitted c branches N function (.doWhile body condition) := by
  intro s s' code h
  simp only [stmt, bind_eq_ok, pure_eq_ok] at h
  obtain ⟨_, s₁, hl, b, s₂, hb, test, s₃, htest, rfl, rfl⟩ := h
  obtain ⟨rfl, hnext⟩ := label_of_freshLabel hl
  obtain ⟨A, hAs, hAc, hAl, hA, htidyA⟩ := emitted_expr hN condition _ _ _ _ htest
  obtain ⟨B, hBs, hBc, hBl, hB, htidyB⟩ := ih _ _ _ hb
  refine ⟨_, ?_, ?_, ?_,
    ((((emits_freshLabel hl).append (emits_label s.nextLabel)).append hB).append
    hA).append (emits_jumpIfNotZero (result c) s.nextLabel), fun k => ?_⟩
  · simp [hAs, hBs]
  · simp [hAc, hBc, or_comm]
  · simp [hAl, hBl]
  · have hkA := hA.counts htidyA k
    have hkB := hB.counts htidyB k
    simp only [Account.count_append, List.count_singleton, beq_iff_eq, List.count_nil]
    split_ifs <;> omega

theorem emitted_loop {body : List Stmt} (ih : BlockEmitted c branches N function body) :
    StmtEmitted c branches N function (.loop body) := by
  intro s s' code h
  simp only [stmt, bind_eq_ok, pure_eq_ok] at h
  obtain ⟨_, s₁, hl, b, s₂, hb, rfl, rfl⟩ := h
  obtain ⟨rfl, hnext⟩ := label_of_freshLabel hl
  obtain ⟨B, hBs, hBc, hBl, hB, htidyB⟩ := ih _ _ _ hb
  refine ⟨_, ?_, ?_, ?_, (((emits_freshLabel hl).append (emits_label s.nextLabel)).append hB).append
    (emits_jump s.nextLabel), fun k => ?_⟩
  · simp [hBs]
  · simp [hBc]
  · simp [hBl]
  · have hkB := hB.counts htidyB k
    simp only [Account.count_append, List.count_singleton, beq_iff_eq, List.count_nil]
    split_ifs <;> omega

end

mutual

/-- The account of a statement. -/
theorem emitted_stmt (hN : N.Keyed) : ∀ st : Stmt, StmtEmitted c branches N function st
  | .declare _ _ => emitted_declare hN
  | .assign _ _ => emitted_assign hN
  | .assignIndexed _ _ _ => emitted_assignIndexed hN
  | .increment _ | .decrement _ => fun _ _ _ h => by
    simp only [stmt, bind_eq_ok, pure_eq_ok] at h
    obtain ⟨v, s₁, hv, rfl, rfl⟩ := h
    exact emitted_step (by simp) hv
  | .return_ _ => emitted_return hN
  | .ifThen _ body => emitted_ifThen hN (emitted_block hN body)
  | .ifElse _ body otherwise =>
    emitted_ifElse hN (emitted_block hN body) (emitted_block hN otherwise)
  | .while_ _ body => emitted_while hN (emitted_block hN body)
  | .doWhile body _ => emitted_doWhile hN (emitted_block hN body)
  | .loop body => emitted_loop (emitted_block hN body)
  | .expr _ => emitted_discarded hN

/-- The account of a list of statements. -/
theorem emitted_block (hN : N.Keyed) : ∀ body : List Stmt, BlockEmitted c branches N function body
  | [], _, _, _, h => by
    simp only [block, pure_eq_ok] at h
    obtain ⟨rfl, rfl⟩ := h
    exact emits_nil.emitted rfl rfl
  | st :: rest, _, _, _, h => by
    simp only [block, bind_eq_ok, pure_eq_ok] at h
    obtain ⟨a, s₁, ha, b, s₂, hb, rfl, rfl⟩ := h
    simpa [Stmt.stringsOf]
      using (emitted_stmt hN st _ _ _ ha).append (emitted_block hN rest _ _ _ hb)

end

end

/-! ### Parameters -/

/-- The account of parameters. -/
theorem emitted_parameters {c : Convention} {branches : Bool} {N : Names} {function : String}
    {bs : List Binding} {index : Nat} {s s' : GenerateState} {code : List (Primitive c.registers)}
    (h : parameters c bs index s = .ok (code, s')) :
    Emitted branches N function [] [] bs s s' code := by
  induction bs generalizing index s code with
  | nil =>
    simp only [parameters, pure_eq_ok] at h
    obtain ⟨rfl, rfl⟩ := h
    exact emits_nil.emitted rfl rfl
  | cons b bs ih =>
    simp only [parameters, bind_eq_ok, pure_eq_ok, register_eq_ok] at h
    obtain ⟨slot, s₁, hdeclare, r, s₂, ⟨-, rfl⟩, rest, s₃, hrest, rfl, rfl⟩ := h
    have hv := variableIn?_of_declareLocal N hdeclare
    have hfirst : Emitted branches N function [] [] [b] s s₂
        [Primitive.store (.frame slot.offset) r slot.datatype.size] :=
      ((emits_declareLocal hdeclare).append ((accesses_store r _).emits hv)).emitted rfl rfl
    exact hfirst.append (ih hrest)

end Native

end Firestorm
