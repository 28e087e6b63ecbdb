import Firestorm.Proofs.Fallible
import Firestorm.Proofs.Native.RegisterMachine
import Firestorm.Proofs.Symbols.Tables

/-!
# The cascade of registers

The code for an expression works on a cascade of registers: the value goes into the target, the
right operand of an operator into the next register, and what lies before the target is not touched.
A call may destroy every register, so it is surrounded by a save and a restore of the registers
before its target.

This file proves that the cascade computes the values of expressions. The proof follows the
generation of code form by form. Each form has a lemma from the contracts of its parts to its own
contract, and the contract of every expression is assembled from them by recursion on its structure.

## Main definitions

* `Native.RegisterState.Keeps`, `Native.Delivers`, `Native.DeliversAll`.

## Main results

* `Native.delivers`, `Native.deliversAll`: code that is generated meets its contract.
* `Native.performAll_expr`: the code for an expression leaves its value in the target, and
  everything else as the expression does.
-/

namespace Firestorm.Native

open Fallible

variable {c : Convention} {names : Names} {function : String}
variable {s s' : GenerateState} {name : String} {n t : Nat} {E : Setting n}
  {e operand left right : Expr} {v : Word} {code : List (Primitive c.registers)}

-- The equations are generated once, in front of the proofs that open them.
attribute [local simp] expr exprs Reading.value Reading.values

theorem register_eq_ok {i : Nat} {r : Fin c.registers} :
    register c i s = .ok (r, s') ↔ r.val = i ∧ s' = s := by
  unfold register
  split
  · next h =>
    rw [pure_eq_ok]
    constructor
    · rintro ⟨rfl, rfl⟩
      exact ⟨rfl, rfl⟩
    · rintro ⟨rfl, rfl⟩
      exact ⟨rfl, rfl⟩
  · next h =>
    constructor
    · intro h'
      exact absurd h' throw_ne_ok
    · rintro ⟨rfl, -⟩
      exact absurd r.isLt h

theorem ofSymbols_eq_ok {α : Type} {x : Except SymbolError α} {a : α} :
    ofSymbols x s = .ok (a, s') ↔ x = .ok a ∧ s' = s := by
  unfold ofSymbols
  cases x with
  | ok b =>
    rw [pure_eq_ok, Except.ok.injEq, eq_comm (a := s)]
  | error e => simp [throw_ne_ok]

theorem variableOf_eq_ok {v : Variable} (h : variableOf names name s = .ok (v, s')) :
    names.variableIn? s.layout name = some v ∧ s' = s := by
  unfold variableOf at h
  obtain ⟨a, s₁, hget, h⟩ := bind_eq_ok.1 h
  cases get_eq_ok.1 hget
  unfold Names.variableIn?
  cases hslot : s.layout.get? name with
  | some slot =>
    simp only [hslot] at h
    obtain ⟨rfl, rfl⟩ := pure_eq_ok.1 h
    exact ⟨rfl, rfl⟩
  | none =>
    cases hd : names.globals.get? name with
    | some d =>
      simp only [hslot, hd] at h
      obtain ⟨rfl, rfl⟩ := pure_eq_ok.1 h
      exact ⟨rfl, rfl⟩
    | none =>
      simp only [hslot, hd] at h
      exact absurd h throw_ne_ok

/-- A string that has been put into the pool keeps its place when the pool grows. -/
theorem idxOf_of_internInto {strings strings' pool : List String} {content : String} {i : Nat}
    (h : internInto strings content = (i, strings')) (hpool : strings' <+: pool) :
    pool.idxOf content = i ∧ strings <+: strings' := by
  obtain ⟨rest, rfl⟩ := hpool
  unfold internInto at h
  split at h
  · next index hindex =>
    obtain ⟨rfl, rfl⟩ := Prod.mk.inj h
    refine ⟨?_, List.prefix_refl _⟩
    have hmem : content ∈ strings := by
      rw [← List.isSome_idxOf?, hindex]
      rfl
    grind
  · next hnone =>
    obtain ⟨rfl, rfl⟩ := Prod.mk.inj h
    rw [List.idxOf?_eq_none_iff] at hnone
    refine ⟨?_, List.prefix_append _ _⟩
    rw [List.append_assoc, List.idxOf_append_of_notMem hnone]
    simp

theorem intern_eq_ok {content label : String} (h : intern content s = .ok (label, s')) :
    s'.layout = s.layout ∧ s.strings <+: s'.strings ∧
      ∀ pool, s'.strings <+: pool → label = stringLabel (pool.idxOf content) := by
  unfold intern at h
  have h := modifyGet_eq_ok.1 h
  cases hi : internInto s.strings content with
  | mk i strings =>
    simp only [hi, Prod.mk.injEq] at h
    obtain ⟨rfl, rfl⟩ := h
    refine ⟨rfl, (idxOf_of_internInto hi (List.prefix_refl _)).2, fun pool hpool => ?_⟩
    rw [(idxOf_of_internInto hi hpool).1]

namespace RegisterState

variable {n : Nat}

@[simp] theorem set_registers_self (s : RegisterState n) (r : Fin n) (value : Word) :
    (s.set r value).registers r = value := by
  simp [set]

theorem set_registers_of_ne (s : RegisterState n) {r r' : Fin n} (h : r' ≠ r) (value : Word) :
    (s.set r value).registers r' = s.registers r' := by
  simp [set, h]

@[simp] theorem set_frame (s : RegisterState n) (r : Fin n) (value : Word) :
    (s.set r value).frame = s.frame := rfl

@[simp] theorem set_world (s : RegisterState n) (r : Fin n) (value : Word) :
    (s.set r value).world = s.world := rfl

/-- The registers before `t`, the stack and the frame are the same in two states. -/
structure Keeps (t : Nat) (s s' : RegisterState n) : Prop where
  registers_eq : ∀ r : Fin n, r.val < t → s'.registers r = s.registers r
  stack_eq : s'.stack = s.stack
  frame_eq : s'.frame = s.frame

namespace Keeps

variable {t u : Nat} {s s' s'' : RegisterState n}

theorem refl (t : Nat) (s : RegisterState n) : Keeps t s s :=
  ⟨fun _ _ => rfl, rfl, rfl⟩

theorem trans (h : Keeps t s s') (h' : Keeps t s' s'') : Keeps t s s'' :=
  ⟨fun r hr => (h'.registers_eq r hr).trans (h.registers_eq r hr),
    h'.stack_eq.trans h.stack_eq, h'.frame_eq.trans h.frame_eq⟩

theorem mono (h : Keeps u s s') (htu : t ≤ u) : Keeps t s s' :=
  ⟨fun r hr => h.registers_eq r (by omega), h.stack_eq, h.frame_eq⟩

/-- A change of a register that is not before `t` keeps what is before it. -/
theorem set (h : Keeps t s s') {r : Fin n} (hr : t ≤ r.val) (value : Word) :
    Keeps t s (s'.set r value) := by
  refine ⟨fun r' hr' => ?_, h.stack_eq, h.frame_eq⟩
  rw [set_registers_of_ne s' (by rintro rfl; omega), h.registers_eq r' hr']

end Keeps

/-- Popping gives back to registers what the stack holds for them, and takes it from the stack. -/
theorem pop_of_stack (f : Fin n → Word) (rs : List (Fin n)) (stack : List Word)
    (s : RegisterState n) (h : s.stack = rs.map f ++ stack) :
    ∃ s', s.pop rs = some s' ∧ s'.stack = stack ∧ s'.frame = s.frame ∧ s'.world = s.world ∧
      ∀ r, s'.registers r = if r ∈ rs then f r else s.registers r := by
  induction rs generalizing s with
  | nil => exact ⟨s, rfl, by simpa using h, rfl, rfl, fun r => by simp⟩
  | cons r rs ih =>
    simp only [List.map_cons, List.cons_append] at h
    obtain ⟨s', hpop, hstack, hframe, hworld, hregs⟩ :=
      ih { s.set r (f r) with stack := rs.map f ++ stack } rfl
    refine ⟨s', ?_, hstack, hframe, hworld, fun r' => ?_⟩
    · rw [pop, h]
      exact hpop
    · rw [hregs r']
      by_cases hrs : r' ∈ rs
      · simp [hrs]
      · by_cases hr : r' = r
        · subst hr
          simp [hrs, set]
        · simp [hrs, hr, set]

end RegisterState

theorem mem_registersBefore {t r : Fin n} : r ∈ registersBefore t ↔ r.val < t.val := by
  unfold registersBefore
  rw [List.mem_take_iff_getElem]
  constructor
  · rintro ⟨i, hi, rfl⟩
    simp at hi ⊢
    omega
  · intro h
    exact ⟨r.val, by simp; omega, by simp⟩

/-! ### What the code for an expression does -/

/-- Unless a division by zero obstructs it, the expression has a value, and the code runs from `s`
to a state in which the register at `t` holds that value. What lies before `t` is kept, and the
world is the one behind the evaluation. -/
def Reading.Meets {n : Nat} (R : Reading) (E : Setting n) (e : Expr) (t : Nat)
    (code : List (Primitive n)) (s : RegisterState n) : Prop :=
  R.value E s.frame e s.world ≠ .error .divisionByZero →
    ∃ v w s', R.value E s.frame e s.world = .ok (v, w) ∧
      performAll R.names.functions E code s = some s' ∧
      (∀ r : Fin n, r.val = t → s'.registers r = v) ∧ s.Keeps t s' ∧ s'.world = w

/-- The same for arguments, whose values are in the registers from `t` on. -/
def Reading.MeetsAll {n : Nat} (R : Reading) (E : Setting n) (es : List Expr) (t : Nat)
    (code : List (Primitive n)) (s : RegisterState n) : Prop :=
  R.values E s.frame es s.world ≠ .error .divisionByZero →
    ∃ vs w s', R.values E s.frame es s.world = .ok (vs, w) ∧ vs.length = es.length ∧
      performAll R.names.functions E code s = some s' ∧
      (∀ (r : Fin n) (i : Nat), r.val = t + i → i < vs.length → some (s'.registers r) = vs[i]?) ∧
      s.Keeps t s' ∧ s'.world = w

/-- What the generation of code for an expression guarantees: the target is a register, the layout
stays, strings are only added, and the code meets the expression for every pool with these
strings. -/
structure Delivers (c : Convention) (names : Names) (e : Expr) (t : Nat) (s s' : GenerateState)
    (code : List (Primitive c.registers)) : Prop where
  target_lt : t < c.registers
  layout_eq : s'.layout = s.layout
  strings_le : s.strings <+: s'.strings
  meets : ∀ (E : Setting c.registers) (pool : List String) (m : RegisterState c.registers),
    s'.strings <+: pool → Reading.Meets ⟨s.layout, names, pool⟩ E e t code m

/-- The same for arguments. -/
structure DeliversAll (c : Convention) (names : Names) (es : List Expr) (t : Nat)
    (s s' : GenerateState) (code : List (Primitive c.registers)) : Prop where
  layout_eq : s'.layout = s.layout
  strings_le : s.strings <+: s'.strings
  meets : ∀ (E : Setting c.registers) (pool : List String) (m : RegisterState c.registers),
    s'.strings <+: pool → Reading.MeetsAll ⟨s.layout, names, pool⟩ E es t code m

/-- Every function stands under its own name. -/
def Names.Keyed (N : Names) : Prop :=
  ∀ name f, N.functions.get? name = some f → f.name = name

/-- Whatever code is generated for an expression meets its contract. -/
def Delivered (c : Convention) (names : Names) (function : String) (e : Expr) : Prop :=
  ∀ t s s' code, expr c names function e t s = .ok (code, s') → Delivers c names e t s s' code

/-- The same for arguments. -/
def DeliveredAll (c : Convention) (names : Names) (function : String) (es : List Expr) : Prop :=
  ∀ t s s' code, exprs c names function es t s = .ok (code, s') → DeliversAll c names es t s s' code

/-- A code whose last primitive puts the value of the expression into its target. -/
theorem Reading.meets_append {R : Reading} {p : Primitive n} {code : List (Primitive n)}
    {s s' s'' : RegisterState n} {target : Fin n} {w : World}
    (hvalue : R.value E s.frame e s.world = .ok (v, w))
    (hrun : performAll R.names.functions E code s = some s') (hkeeps : s.Keeps target.val s'')
    (hworld : s''.world = w)
    (hperform : perform R.names.functions E p s' = some (s''.set target v)) :
    R.Meets E e target.val (code ++ [p]) s := by
  intro _
  refine ⟨v, w, s''.set target v, hvalue, ?_, ?_, hkeeps.set le_rfl v, hworld⟩
  · rw [performAll_append, hrun, Option.bind_some, performAll_singleton, hperform]
  · intro r hr
    obtain rfl : r = target := Fin.ext hr
    exact RegisterState.set_registers_self s'' r v

/-- A code of one primitive that puts the value of the expression into its target. -/
theorem Reading.meets_singleton {R : Reading} {p : Primitive n} {s : RegisterState n}
    {target : Fin n} (hvalue : R.value E s.frame e s.world = .ok (v, s.world))
    (hperform : perform R.names.functions E p s = some (s.set target v)) :
    R.Meets E e target.val [p] s :=
  Reading.meets_append hvalue (performAll_nil _ E s) (RegisterState.Keeps.refl _ s) rfl hperform

theorem delivers_literal {l : Literal} : Delivered c names function (.literal l) := by
  intro t s s' code h
  cases l with
  | number value | chr byte =>
    simp only [expr, bind_eq_ok, pure_eq_ok, register_eq_ok] at h
    obtain ⟨r, s₁, ⟨rfl, rfl⟩, rfl, rfl⟩ := h
    exact ⟨r.isLt, rfl, List.prefix_refl _, fun E pool m _ => Reading.meets_singleton rfl rfl⟩
  | str content =>
    simp only [expr, bind_eq_ok, pure_eq_ok, register_eq_ok] at h
    obtain ⟨r, s₁, ⟨rfl, rfl⟩, label, s₂, hlabel, rfl, rfl⟩ := h
    obtain ⟨hlayout, hstrings, hplace⟩ := intern_eq_ok hlabel
    refine ⟨r.isLt, hlayout, hstrings, fun E pool m hpool => Reading.meets_singleton rfl ?_⟩
    rw [hplace pool hpool]
    rfl

theorem delivers_lookup : Delivered c names function (.lookup name) := by
  intro t s s' code h
  simp only [expr, bind_eq_ok, pure_eq_ok, register_eq_ok] at h
  obtain ⟨r, s₁, ⟨rfl, rfl⟩, v, s₂, hv, rfl, rfl⟩ := h
  obtain ⟨hv, rfl⟩ := variableOf_eq_ok hv
  refine ⟨r.isLt, rfl, List.prefix_refl _, fun E pool m _ => ?_⟩
  have hvalue : Reading.value ⟨s₂.layout, names, pool⟩ E m.frame (.lookup name) m.world =
      .ok (Reading.load m.frame m.world v, m.world) := by
    simp only [Reading.value, hv]
  refine Reading.meets_singleton hvalue ?_
  obtain ⟨d, place⟩ := v
  cases place <;> rfl

/-- A primitive behind the code for an operand that replaces the operand's value in its register. -/
theorem Delivers.replace {f : Word → Word} {r : Fin c.registers} {p : Primitive c.registers}
    (hd : Delivers c names operand r.val s s' code)
    (hvalue : ∀ (R : Reading) (E : Setting c.registers) (frame : Nat → UInt8) (w : World),
      R.value E frame e w = R.value E frame operand w >>= fun x => .ok (f x.1, x.2))
    (hperform : ∀ (E : Setting c.registers) (m : RegisterState c.registers),
      perform names.functions E p m = some (m.set r (f (m.registers r)))) :
    Delivers c names e r.val s s' (code ++ [p]) := by
  refine ⟨hd.target_lt, hd.layout_eq, hd.strings_le, fun E pool m hpool hzero => ?_⟩
  have hzero' := hzero
  rw [hvalue] at hzero'
  obtain ⟨v, w, m', hoperand, hrun, hreg, hkeeps, rfl⟩ :=
    hd.meets E pool m hpool (ne_error_of_bind hzero')
  have hresult : Reading.value ⟨s.layout, names, pool⟩ E m.frame e m.world =
      .ok (f v, m'.world) := by
    rw [hvalue, hoperand]
    rfl
  refine Reading.meets_append hresult hrun hkeeps rfl ?_ hzero
  rw [hperform, hreg r rfl]

/-- A primitive behind the code for two operands in neighbouring registers that puts a value made of
both into the first of them. -/
theorem Delivers.combine {f : Word → Word → Option Word} {r r' : Fin c.registers}
    {s₁ : GenerateState} {a b : List (Primitive c.registers)} {p : Primitive c.registers}
    (hl : Delivers c names left r.val s s₁ a) (hr : Delivers c names right (r.val + 1) s₁ s' b)
    (hr' : r'.val = r.val + 1)
    (hvalue : ∀ (R : Reading) (E : Setting c.registers) (frame : Nat → UInt8) (w : World),
      R.value E frame e w = R.value E frame left w >>= fun x => R.value E frame right x.2 >>=
      fun y =>
        (f x.1 y.1).elim (.error .divisionByZero) fun z => .ok (z, y.2))
    (hperform : ∀ (E : Setting c.registers) (m : RegisterState c.registers) (z : Word),
      f (m.registers r) (m.registers r') = some z → ∃ m', m.Keeps r.val m' ∧ m'.world = m.world ∧
        perform names.functions E p m = some (m'.set r z)) :
    Delivers c names e r.val s s' (a ++ b ++ [p]) := by
  refine ⟨r.isLt, hr.layout_eq.trans hl.layout_eq, hl.strings_le.trans hr.strings_le,
    fun E pool m hpool hzero => ?_⟩
  have hzero' := hzero
  rw [hvalue] at hzero'
  obtain ⟨x, w, m₁, hx, hrun₁, hreg₁, hkeeps₁, rfl⟩ :=
    hl.meets E pool m (hr.strings_le.trans hpool) (ne_error_of_bind hzero')
  rw [hx, ok_bind] at hzero'
  have hmeets := hr.meets E pool m₁ hpool
  rw [hl.layout_eq] at hmeets
  unfold Reading.Meets at hmeets
  rw [hkeeps₁.frame_eq] at hmeets
  obtain ⟨y, w, m₂, hy, hrun₂, hreg₂, hkeeps₂, rfl⟩ := hmeets (ne_error_of_bind hzero')
  rw [hy, ok_bind] at hzero'
  cases hz : f x y with
  | none =>
    rw [hz] at hzero'
    exact absurd rfl hzero'
  | some z =>
    have hresult : Reading.value ⟨s.layout, names, pool⟩ E m.frame e m.world =
        .ok (z, m₂.world) := by
      rw [hvalue, hx, ok_bind, hy, ok_bind, hz, Option.elim_some]
    have hregx : m₂.registers r = x := by
      rw [hkeeps₂.registers_eq r (Nat.lt_succ_self _), hreg₁ r rfl]
    obtain ⟨m₃, hkeeps₃, hworld, hlast⟩ := hperform E m₂ z (by rw [hregx, hreg₂ r' hr', hz])
    have hrun : performAll names.functions E (a ++ b) m = some m₂ := by
      rw [performAll_append, hrun₁, Option.bind_some, hrun₂]
    exact Reading.meets_append hresult hrun
      ((hkeeps₁.trans (hkeeps₂.mono (Nat.le_succ _))).trans hkeeps₃) hworld hlast hzero

/-- The contract is about the layout and the strings behind the generation only. -/
theorem Delivers.of_eq {s₁ : GenerateState} (h : Delivers c names e t s s₁ code)
    (hlayout : s'.layout = s₁.layout) (hstrings : s'.strings = s₁.strings) :
    Delivers c names e t s s' code :=
  ⟨h.target_lt, hlayout.trans h.layout_eq, hstrings ▸ h.strings_le,
    fun E pool m hpool => h.meets E pool m (hstrings ▸ hpool)⟩

theorem delivers_unary {op : UnaryOp} (ih : Delivered c names function operand) :
    Delivered c names function (.unary op operand) := by
  intro t s s' code h
  simp only [expr, bind_eq_ok, pure_eq_ok, register_eq_ok] at h
  obtain ⟨r, s₁, ⟨rfl, rfl⟩, a, s₂, ha, rfl, rfl⟩ := h
  exact (ih _ _ _ _ ha).replace (fun R E frame w => by rw [Reading.value]; rfl) fun E m => rfl

theorem delivers_not (ih : Delivered c names function operand) :
    Delivered c names function (.not operand) := by
  intro t s s' code h
  simp only [expr, bind_eq_ok, pure_eq_ok, register_eq_ok] at h
  obtain ⟨r, s₁, ⟨rfl, rfl⟩, a, s₂, ha, rfl, rfl⟩ := h
  exact (ih _ _ _ _ ha).replace (f := fun x => Word.ofBool (x == 0))
    (fun R E frame w => by rw [Reading.value]; rfl) fun E m => rfl

theorem delivers_binary {op : BinaryOp} (ihl : Delivered c names function left)
    (ihr : Delivered c names function right) :
    Delivered c names function (.binary op left right) := by
  intro t s s' code h
  simp only [expr, bind_eq_ok, pure_eq_ok, register_eq_ok] at h
  obtain ⟨r, s₁, ⟨rfl, rfl⟩, a, s₂, ha, b, s₃, hb, r', s₄, ⟨hr', rfl⟩, rfl, rfl⟩ := h
  refine (ihl _ _ _ _ ha).combine (ihr _ _ _ _ hb) hr' (f := op.eval) (fun R E frame w => ?_)
    fun E m z hz => ⟨_, (RegisterState.Keeps.refl _ m).set (r := r') (by omega)
      (E.leftover (.binary op r r') m r'), rfl, ?_⟩
  · rw [Reading.value]
    refine bind_congr fun first => ?_
    obtain ⟨x, w₁⟩ := first
    refine bind_congr fun second => ?_
    obtain ⟨y, w₂⟩ := second
    cases hz : op.eval x y <;> simp only [hz] <;> rfl
  · rw [perform, hz]
    rfl

theorem freshLabel_eq_ok {label : String} (h : freshLabel function s = .ok (label, s')) :
    s'.layout = s.layout ∧ s'.strings = s.strings := by
  cases modifyGet_eq_ok.1 h
  exact ⟨rfl, rfl⟩

theorem delivers_compare {op : CompareOp} (ihl : Delivered c names function left)
    (ihr : Delivered c names function right) :
    Delivered c names function (.compare op left right) := by
  intro t s s' code h
  simp only [expr, bind_eq_ok, pure_eq_ok, register_eq_ok] at h
  obtain ⟨r, s₁, ⟨rfl, rfl⟩, a, s₂, ha, b, s₃, hb, r', s₄, ⟨hr', rfl⟩, scratch, s₅, ⟨hscratch, rfl⟩,
      label, s₆,
    hlabel, rfl, rfl⟩ := h
  obtain ⟨hlayout, hstrings⟩ := freshLabel_eq_ok hlabel
  refine Delivers.of_eq ?_ hlayout hstrings
  refine (ihl _ _ _ _ ha).combine (ihr _ _ _ _ hb) hr'
    (f := fun x y => some (Word.ofBool (op.eval x y)))
    (fun R E frame w => by rw [Reading.value]; rfl) fun E m z hz => ⟨_,
      ((RegisterState.Keeps.refl _ m).set (r := r') (by omega)
        (E.leftover (.compare op r r' scratch label) m r')).set (r := scratch) (by omega)
        (E.leftover (.compare op r r' scratch label) m scratch), rfl, ?_⟩
  cases hz
  rfl

/-- An element of an array, or a bit of a number. -/
def Variable.item (v : Variable) (base index : Word) (w : World) : Word :=
  if v.datatype.array then w.element base index v.datatype.elementSize else Word.bitTest base index

theorem delivers_index {index : Expr} (ih : Delivered c names function index) :
    Delivered c names function (.index name index) := by
  intro t s s' code h
  simp only [expr, bind_eq_ok, register_eq_ok] at h
  obtain ⟨r, s₁, ⟨rfl, rfl⟩, v, s₂, hv, a, s₃, ha, r', s₄, ⟨hr', rfl⟩, h⟩ := h
  obtain ⟨hv, rfl⟩ := variableOf_eq_ok hv
  have hi := ih _ _ _ _ ha
  obtain ⟨p, rfl, rfl, hp⟩ : ∃ p, s' = s₄ ∧ code = .load r v.place v.datatype.size :: a ++ [p] ∧
      ∀ (E : Setting c.registers) (m : RegisterState c.registers), ∃ m',
        m.Keeps r.val m' ∧ m'.world = m.world ∧ perform names.functions E p m =
          some (m'.set r (v.item (m.registers r) (m.registers r') m.world)) := by
    unfold Variable.item
    cases harray : v.datatype.array with
    | true =>
      simp only [harray, if_true, pure_eq_ok] at h
      obtain ⟨rfl, rfl⟩ := h
      exact ⟨_, rfl, rfl, fun E m =>
        ⟨_, (RegisterState.Keeps.refl _ m).set (r := r') (by omega) _, rfl, rfl⟩⟩
    | false =>
      simp only [harray, Bool.false_eq_true, if_false, bind_eq_ok, pure_eq_ok, register_eq_ok] at h
      obtain ⟨scratch, s₅, ⟨hscratch, rfl⟩, rfl, rfl⟩ := h
      exact ⟨_, rfl, rfl, fun E m => ⟨_, ((RegisterState.Keeps.refl _ m).set (r := r') (by omega)
        _).set (r := scratch) (by omega) _, rfl, rfl⟩⟩
  refine ⟨r.isLt, hi.layout_eq, hi.strings_le, fun E pool m hpool hzero => ?_⟩
  -- The base is in its register before the index is evaluated, and stays there.
  have hvalue : ∀ frame w, Reading.value ⟨s₂.layout, names, pool⟩ E frame (.index name index) w =
      Reading.value ⟨s₂.layout, names, pool⟩ E frame index w >>= fun x =>
        .ok (v.item (Reading.load frame w v) x.1 x.2, x.2) := by
    intro frame w
    simp only [Reading.value, hv, Variable.item]
    congr 1
    funext x
    split <;> rfl
  have hload : perform names.functions E (.load r v.place v.datatype.size) m =
      some (m.set r (Reading.load m.frame m.world v)) := by
    obtain ⟨d, place⟩ := v
    cases place <;> rfl
  have hzero' := hzero
  rw [hvalue] at hzero'
  obtain ⟨x, w, m₁, hx, hrun, hreg, hkeeps, rfl⟩ :=
    hi.meets E pool (m.set r (Reading.load m.frame m.world v)) hpool (ne_error_of_bind hzero')
  obtain ⟨m₂, hkeeps₂, hworld₂, hperform⟩ := hp E m₁
  have hbase : m₁.registers r = Reading.load m.frame m.world v := by
    rw [hkeeps.registers_eq r (by omega), RegisterState.set_registers_self]
  rw [hbase, hreg r' hr'] at hperform
  have hresult : Reading.value ⟨s₂.layout, names, pool⟩ E m.frame (.index name index) m.world =
      .ok (v.item (Reading.load m.frame m.world v) x m₁.world, m₁.world) := by
    rw [hvalue]
    simp only [RegisterState.set_frame, RegisterState.set_world] at hx
    rw [hx, ok_bind]
  have hkeeps₁ : m.Keeps r.val m₁ :=
    ((RegisterState.Keeps.refl r.val m).set le_rfl _).trans (hkeeps.mono (Nat.le_succ _))
  refine Reading.meets_append hresult ?_ (hkeeps₁.trans hkeeps₂) hworld₂ hperform hzero
  rw [performAll_cons, hload]
  exact hrun

theorem deliversAll_nil : DeliveredAll c names function [] := by
  intro t s s' code h
  simp only [exprs, pure_eq_ok] at h
  obtain ⟨rfl, rfl⟩ := h
  refine ⟨rfl, List.prefix_refl _, fun E pool m _ _ => ?_⟩
  exact ⟨[], m.world, m, rfl, rfl, rfl, fun r i _ hi => absurd hi (Nat.not_lt_zero i),
    RegisterState.Keeps.refl t m, rfl⟩

theorem deliversAll_cons {es : List Expr} (ihe : Delivered c names function e)
    (ihes : DeliveredAll c names function es) : DeliveredAll c names function (e :: es) := by
  intro t s s' code h
  simp only [exprs, bind_eq_ok, pure_eq_ok] at h
  obtain ⟨a, s₁, ha, b, s₂, hb, rfl, rfl⟩ := h
  have he := ihe _ _ _ _ ha
  have hes := ihes _ _ _ _ hb
  refine ⟨hes.layout_eq.trans he.layout_eq, he.strings_le.trans hes.strings_le,
    fun E pool m hpool hzero => ?_⟩
  simp only [Reading.values] at hzero
  obtain ⟨x, w, m₁, hx, hrun₁, hreg₁, hkeeps₁, rfl⟩ :=
    he.meets E pool m (hes.strings_le.trans hpool) (ne_error_of_bind hzero)
  rw [hx, ok_bind] at hzero
  have hmeets := hes.meets E pool m₁ hpool
  rw [he.layout_eq] at hmeets
  unfold Reading.MeetsAll at hmeets
  rw [hkeeps₁.frame_eq] at hmeets
  obtain ⟨xs, w', m₂, hxs, hlength, hrun₂, hreg₂, hkeeps₂, rfl⟩ := hmeets (ne_error_of_bind hzero)
  refine ⟨x :: xs, m₂.world, m₂, ?_, by simp [hlength], ?_, fun r i hr hi => ?_,
    hkeeps₁.trans (hkeeps₂.mono (Nat.le_succ t)), rfl⟩
  · simp only [Reading.values, hx, hxs, ok_bind]
    rfl
  · rw [performAll_append, hrun₁]
    exact hrun₂
  · cases i with
    | zero =>
      rw [hkeeps₂.registers_eq r (by omega), hreg₁ r (by omega)]
      rfl
    | succ i =>
      rw [hreg₂ r i (by omega) (by simpa using hi)]
      rfl

/-- The first registers hold the values, so that a function with as many parameters takes them as
its arguments. -/
theorem map_take_finRange {f : Fin n → Word} {xs : List Word} (hle : xs.length ≤ n)
    (h : ∀ (r : Fin n) (i : Nat), r.val = 0 + i → i < xs.length → some (f r) = xs[i]?) :
    ((List.finRange n).take xs.length).map f = xs := by
  refine List.ext_getElem? fun i => ?_
  by_cases hi : i < xs.length
  · have hr := h ⟨i, by omega⟩ i (by simp) hi
    rw [← hr]
    simp [hi, show i < n by omega]
  · rw [List.getElem?_eq_none (by simp; omega), List.getElem?_eq_none (by omega)]

theorem noteCallee_eq_ok {u : Unit} (h : noteCallee name s = .ok (u, s')) :
    s' = { s with callees := name :: s.callees } := by
  cases modify_eq_ok.1 h
  rfl

/-- A call whose arguments are in the first registers leaves its result in the first one. -/
theorem perform_call {functions : FunctionTable} {f : FunctionDef} {xs : List Word}
    {m : RegisterState n} (hget : functions.get? f.name = some f)
    (hlength : f.parameters.length = xs.length) (hle : xs.length ≤ n)
    (hregs : ∀ (r : Fin n) (i : Nat), r.val = 0 + i → i < xs.length →
      some (m.registers r) = xs[i]?) :
    ∃ m', perform functions E (.call f.name) m = some m' ∧
      (∀ r : Fin n, r.val = 0 → m'.registers r = (E.call f.name xs m.world).1) ∧
      m'.stack = m.stack ∧ m'.frame = m.frame ∧ m'.world = (E.call f.name xs m.world).2 := by
  have hxs : ((List.finRange n).take (arity functions f.name)).map m.registers = xs := by
    rw [arity, hget]
    simp only [hlength]
    exact map_take_finRange hle hregs
  simp only [perform, hxs]
  exact ⟨_, rfl, fun r hr => by simp [hr], rfl, rfl, rfl⟩

/-- The result of a call is moved from the first register to the target. -/
theorem performAll_moved (functions : FunctionTable) (E : Setting c.registers) (r : Fin c.registers)
    {m : RegisterState c.registers} (hv : ∀ r : Fin c.registers, r.val = 0 → m.registers r = v) :
    ∃ m', performAll functions E (if r.val = 0 then [] else [.copy r (result c)]) m = some m' ∧
      m'.registers r = v ∧ m'.stack = m.stack ∧ m'.frame = m.frame ∧ m'.world = m.world := by
  by_cases hr : r.val = 0
  · simp only [hr, if_true]
    exact ⟨m, rfl, hv r hr, rfl, rfl, rfl⟩
  · simp only [hr, if_false, performAll_singleton]
    exact ⟨_, rfl, by rw [RegisterState.set_registers_self, hv _ rfl], rfl, rfl, rfl⟩

theorem delivers_call {callee : String} {arguments : List Expr} (hnamed : names.Keyed)
    (ih : DeliveredAll c names function arguments) :
    Delivered c names function (.call callee arguments) := by
  intro t s s' code h
  simp only [expr, bind_eq_ok, unless_eq_ok, pure_eq_ok, register_eq_ok] at h
  obtain ⟨r, s₁, ⟨rfl, rfl⟩, f, s₂, hresolve, u, s₃, hnote, hle, a, s₄, ha, rfl, rfl⟩ := h
  obtain ⟨hf, rfl⟩ := ofSymbols_eq_ok.1 hresolve
  obtain ⟨hget, hlength⟩ := FunctionTable.resolve_eq_ok.1 hf
  obtain rfl := noteCallee_eq_ok hnote
  obtain rfl := hnamed _ _ hget
  have hd := ih _ _ _ _ ha
  refine ⟨r.isLt, hd.layout_eq, hd.strings_le, fun E pool m hpool hzero => ?_⟩
  simp only [Reading.value, hget] at hzero
  -- Saving changes the stack alone, so the arguments have the same values behind it.
  obtain ⟨xs, w, m₁, hxs, hxslength, hrun₁, hregs₁, hkeeps₁, rfl⟩ :=
    hd.meets E pool (m.push (registersBefore r)) hpool (ne_error_of_bind hzero)
  have hxs' : Reading.values ⟨s₂.layout, names, pool⟩ E m.frame arguments m.world =
      .ok (xs, m₁.world) := hxs
  obtain ⟨m₂, hrun₂, hresult₂, hstack₂, hframe₂, hworld₂⟩ :=
    perform_call (E := E) hget (hlength.trans hxslength.symm) (by omega) hregs₁
  obtain ⟨m₃, hrun₃, hresult₃, hstack₃, hframe₃, hworld₃⟩ :=
    performAll_moved names.functions E r hresult₂
  have hstack : m₃.stack = (registersBefore r).reverse.map m.registers ++ m.stack := by
    rw [hstack₃, hstack₂, hkeeps₁.stack_eq, List.map_reverse]
    rfl
  obtain ⟨m₄, hrun₄, hstack₄, hframe₄, hworld₄, hregs₄⟩ :=
    RegisterState.pop_of_stack m.registers _ m.stack m₃ hstack
  refine ⟨(E.call f.name xs m₁.world).1, (E.call f.name xs m₁.world).2, m₄, ?_, ?_,
    fun r' hr' => ?_, ⟨fun r' hr' => ?_, hstack₄, ?_⟩, hworld₄.trans (hworld₃.trans hworld₂)⟩
  · simp only [Reading.value, hget, hxs', ok_bind]
    rfl
  · rw [List.append_assoc, List.append_assoc, List.cons_append, performAll_cons]
    change performAll _ E _ (m.push (registersBefore r)) = _
    rw [performAll_append, hrun₁, Option.bind_some, performAll_append, performAll_singleton, hrun₂,
      Option.bind_some, performAll_append, hrun₃, Option.bind_some, performAll_singleton]
    exact hrun₄
  · obtain rfl : r' = r := Fin.ext hr'
    rw [hregs₄, if_neg (by simp [mem_registersBefore]), hresult₃]
  · rw [hregs₄, if_pos (by simpa [mem_registersBefore] using hr')]
  · rw [hframe₄, hframe₃, hframe₂, hkeeps₁.frame_eq]
    rfl

mutual

theorem delivers (hnamed : names.Keyed) : ∀ e : Expr, Delivered c names function e
  | .literal _ => delivers_literal
  | .lookup _ => delivers_lookup
  | .index _ index => delivers_index (delivers hnamed index)
  | .call _ arguments => delivers_call hnamed (deliversAll hnamed arguments)
  | .binary _ left right => delivers_binary (delivers hnamed left) (delivers hnamed right)
  | .compare _ left right => delivers_compare (delivers hnamed left) (delivers hnamed right)
  | .unary _ operand => delivers_unary (delivers hnamed operand)
  | .not operand => delivers_not (delivers hnamed operand)

theorem deliversAll (hnamed : names.Keyed) : ∀ es : List Expr, DeliveredAll c names function es
  | [] => deliversAll_nil
  | e :: es => deliversAll_cons (delivers hnamed e) (deliversAll hnamed es)

end

/-- The code for an expression leaves the value of the expression in the target. It leaves the
registers before the target, the stack and the frame as they were, and does to the world what the
calls of the expression do to it, in their order. -/
theorem performAll_expr {p : Program} (hfunctions : FunctionTable.ofProgram p = .ok names.functions)
    {e : Expr} {t : Nat} {s s' : GenerateState} {code : List (Primitive c.registers)}
    (h : expr c names function e t s = .ok (code, s')) {pool : List String}
    (hpool : s'.strings <+: pool) (E : Setting c.registers) (m : RegisterState c.registers)
    (hzero : Reading.value ⟨s.layout, names, pool⟩ E m.frame e m.world ≠ .error .divisionByZero) :
    ∃ (target : Fin c.registers) (m' : RegisterState c.registers), target.val = t ∧
      performAll names.functions E code m = some m' ∧
      Reading.value ⟨s.layout, names, pool⟩ E m.frame e m.world =
        .ok (m'.registers target, m'.world) ∧
      (∀ r : Fin c.registers, r.val < t → m'.registers r = m.registers r) ∧
      m'.stack = m.stack ∧ m'.frame = m.frame := by
  have hd := delivers (fun _ _ hf => (FunctionTable.mem_of_get? hfunctions hf).2) e t s s' code h
  obtain ⟨v, w, m', hvalue, hrun, hreg, hkeeps, rfl⟩ := hd.meets E pool m hpool hzero
  refine ⟨⟨t, hd.target_lt⟩, m', rfl, hrun, ?_, hkeeps.registers_eq, hkeeps.stack_eq,
    hkeeps.frame_eq⟩
  rw [hvalue, hreg _ rfl]

/-- A function that returns its argument. -/
private def identity : FunctionDef :=
  ⟨"f", {}, [⟨"x", .int⟩], .int, .statements [.return_ (some (.lookup "x"))]⟩

/-- The sum of two calls: the result of the first one survives the second one. -/
theorem performAll_expr_sum_of_calls :
    ∃ code s', expr ⟨3, 0, by decide⟩ ⟨∅, ⟨[("f", identity)]⟩⟩ "spark"
        (.binary .add (.call "f" [.literal (.number 40)]) (.call "f" [.literal (.number 2)])) 1
        ⟨0, [], .reserving 0, []⟩ = .ok (code, s') ∧
      ∃ (target : Fin 3) (m' : RegisterState 3), target.val = 1 ∧
        performAll ⟨[("f", identity)]⟩
            ⟨fun _ => 0, fun _ xs w => (xs.headD 0, w), fun _ _ _ => 0⟩ code
          ⟨fun _ => 7, [5], fun _ => 0, ⟨fun _ _ => 0, fun _ => 0, []⟩⟩ = some m' ∧
        m'.registers target = 42 ∧ m'.world.calls = [("f", [2]), ("f", [40])] ∧
        (∀ r : Fin 3, r.val < 1 → m'.registers r = 7) ∧ m'.stack = [5] := by
  obtain ⟨code, s', hcode⟩ : ∃ code s', expr ⟨3, 0, by decide⟩ ⟨∅, ⟨[("f", identity)]⟩⟩ "spark"
      (.binary .add (.call "f" [.literal (.number 40)]) (.call "f" [.literal (.number 2)])) 1
      ⟨0, [], .reserving 0, []⟩ = .ok (code, s') := ⟨_, _, rfl⟩
  have hfunctions : FunctionTable.ofProgram ⟨[.function identity]⟩ =
      .ok (Names.mk ∅ ⟨[("f", identity)]⟩).functions := rfl
  obtain ⟨target, m', htarget, hrun, hvalue, hregs, hstack, -⟩ :=
    performAll_expr hfunctions hcode (List.prefix_refl _)
      ⟨fun _ => 0, fun _ xs w => (xs.headD 0, w), fun _ _ _ => 0⟩
      ⟨fun _ => 7, [5], fun _ => 0, ⟨fun _ _ => 0, fun _ => 0, []⟩⟩ (by intro h; cases h)
  have hresult := Except.ok.inj hvalue
  refine ⟨code, s', hcode, target, m', htarget, hrun, (congrArg Prod.fst hresult).symm, ?_, hregs,
    hstack⟩
  exact (congrArg (fun x => x.2.calls) hresult).symm

end Firestorm.Native
