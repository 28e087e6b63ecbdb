import Firestorm.Program.Parser.Expr
import Firestorm.Proofs.Program.Operands
import Firestorm.Proofs.Program.Parsing.Lists

/-!
# Reading the layers of expressions

The expressions of a layer are operands of the next layer with the operators of the layer between
them, and the parser for a layer is a loop over such a chain. What is known of the parser for the
operands is carried over to the loop.

A parser for a layer cannot be asked to find every expression of its layer, because a negation among
the operands may take operators that belong to a chain around it. What it is asked is stated in
terms of rows of operands, in which the layers do not count: it stops where no operator of its layer
or of a tighter one follows, it never stops where the row could not be completed, and it finds the
expressions whose negations extend as far as they can.

## Main definitions

* `Parser.operator?`, `Parser.Extends`, `Parser.Onward`, `Parser.Completable`, `Parser.ReadsLevel`.

## Main results

* `Parser.ReadsLevel.chain`.
-/

namespace Firestorm.Parser

open Fallible Grammar

variable {t : Token} {op : BinaryOp} {l : Level} {f : Expr → Expr → Expr} {e : Expr}
  {ts : List Token}

/-! ### Operators -/

theorem compareOp?_eq_some {op : CompareOp} (h : compareOp? t = some op) : t = op.token := by
  cases t <;> cases h <;> rfl

theorem sumOp?_eq_some (h : sumOp? t = some op) : t = op.token ∧ level op = .sum := by
  cases t <;> cases h <;> exact ⟨rfl, rfl⟩

theorem productOp?_eq_some (h : productOp? t = some op) : t = op.token ∧ level op = .product := by
  cases t <;> cases h <;> exact ⟨rfl, rfl⟩

theorem bitwiseOp?_eq_some (h : bitwiseOp? t = some op) : t = op.token ∧ level op = .bitwise := by
  cases t <;> cases h <;> exact ⟨rfl, rfl⟩

/-- The operators of a layer, with what they make of their operands. -/
def operator? (l : Level) (t : Token) : Option (Expr → Expr → Expr) :=
  match l with
  | .comparison => (compareOp? t).map .compare
  | .sum => (sumOp? t).map .binary
  | .product => (productOp? t).map .binary
  | .bitwise => (bitwiseOp? t).map .binary
  | .unary | .primary => none

theorem operator?_compare (op : CompareOp) :
    operator? .comparison op.token = some (.compare op) := by
  cases op <;> rfl

theorem operator?_binary (op : BinaryOp) : operator? (level op) op.token = some (.binary op) := by
  cases op <;> rfl

/-- The operators of a layer are comparisons or arithmetic operators of that layer. -/
theorem operator?_cases (h : operator? l t = some f) :
    (l = .comparison ∧ ∃ op : CompareOp, t = op.token ∧ f = .compare op) ∨
      ∃ op : BinaryOp, level op = l ∧ t = op.token ∧ f = .binary op := by
  cases l with
  | comparison =>
    obtain ⟨op, hop, rfl⟩ := Option.map_eq_some_iff.1 h
    exact .inl ⟨rfl, op, compareOp?_eq_some hop, rfl⟩
  | sum =>
    obtain ⟨op, hop, rfl⟩ := Option.map_eq_some_iff.1 h
    exact .inr ⟨op, (sumOp?_eq_some hop).2, (sumOp?_eq_some hop).1, rfl⟩
  | product =>
    obtain ⟨op, hop, rfl⟩ := Option.map_eq_some_iff.1 h
    exact .inr ⟨op, (productOp?_eq_some hop).2, (productOp?_eq_some hop).1, rfl⟩
  | bitwise =>
    obtain ⟨op, hop, rfl⟩ := Option.map_eq_some_iff.1 h
    exact .inr ⟨op, (bitwiseOp?_eq_some hop).2, (bitwiseOp?_eq_some hop).1, rfl⟩
  | _ => cases h

theorem joinLevel?_of_operator? (h : operator? l t = some f) : joinLevel? t = some l := by
  rcases operator?_cases h with ⟨rfl, op, rfl, -⟩ | ⟨op, rfl, rfl, -⟩
  · exact joinLevel?_compare op
  · exact joinLevel?_binary op

/-- What an operator of a layer makes of its operands belongs to the layer. -/
theorem spells_of_operator? {e' : Expr} {negates : List Token → List Token → Prop}
    {mid rest : List Token} (h : operator? l t = some f)
    (hleft : Spells negates (.expr l e) ts (t :: mid))
    (hright : Spells negates (.expr l.tighter e') mid rest) :
    Spells negates (.expr l (f e e')) ts rest := by
  rcases operator?_cases h with ⟨rfl, op, rfl, rfl⟩ | ⟨op, rfl, rfl, rfl⟩
  · exact .compare op hleft hright
  · exact .binary op hleft hright

theorem exists_operator? (h : joinLevel? t = some l) : ∃ f, operator? l t = some f := by
  cases t <;> cases h <;> exact ⟨_, rfl⟩

/-! ### How far a layer goes -/

/-- How loosely the operators of a layer bind. -/
def rank : Level → Nat
  | .comparison => 4
  | .sum => 3
  | .product => 2
  | .bitwise => 1
  | .unary | .primary => 0

theorem rank_tighter (l : Level) : rank l.tighter = rank l - 1 := by
  cases l <;> rfl

/-- An operator stands first that belongs to the layer or binds tighter. -/
def Extends (l : Level) (ts : List Token) : Prop :=
  ∃ t ∈ ts.head?, ∃ l', joinLevel? t = some l' ∧ rank l' ≤ rank l

theorem rank_pos (h : joinLevel? t = some l) : 0 < rank l := by
  cases t <;> cases h <;> exact Nat.zero_lt_succ _

theorem rank_le_comparison (l : Level) : rank l ≤ rank .comparison := by
  cases l <;> decide

theorem rank_injective {l' : Level} (hl : 0 < rank l) (h : rank l = rank l') : l = l' := by
  revert hl h
  cases l <;> cases l' <;> decide

theorem not_extends_of_rank_eq_zero (h : rank l = 0) (ts : List Token) : ¬ Extends l ts := by
  rintro ⟨t, -, l', hl', hle⟩
  have := rank_pos hl'
  omega

theorem extends_comparison_iff : Extends .comparison ts ↔ Joins ts := by
  constructor
  · rintro ⟨t, ht, l, hl, -⟩
    exact ⟨t, ht, by rw [hl]; rfl⟩
  · rintro ⟨t, ht, hjoins⟩
    obtain ⟨l, hl⟩ := Option.isSome_iff_exists.1 hjoins
    exact ⟨t, ht, l, hl, rank_le_comparison l⟩

/-- A layer goes on with its own operators and with those that bind tighter. -/
theorem not_extends_iff : ¬ Extends l ts ↔ ¬ Extends l.tighter ts ∧ ∀ t ∈ ts.head?,
    operator? l t = none := by
  constructor
  · intro h
    refine ⟨?_, fun t ht => ?_⟩
    · rintro ⟨t, ht, l', hl', hle⟩
      rw [rank_tighter] at hle
      exact h ⟨t, ht, l', hl', by omega⟩
    · by_contra hsome
      obtain ⟨f, hf⟩ := Option.ne_none_iff_exists'.1 hsome
      exact h ⟨t, ht, l, joinLevel?_of_operator? hf, Nat.le_refl _⟩
  · rintro ⟨htighter, hnone⟩ ⟨t, ht, l', hl', hle⟩
    rcases Nat.lt_or_ge (rank l') (rank l) with hlt | hge
    · exact htighter ⟨t, ht, l', hl', by rw [rank_tighter]; omega⟩
    · obtain rfl := rank_injective (rank_pos hl') (Nat.le_antisymm hle hge)
      obtain ⟨f, hf⟩ := exists_operator? hl'
      rw [hnone t ht] at hf
      cases hf

/-- A row of operands goes on to its end, from behind one of its operands. -/
def Onward (ts rest : List Token) : Prop :=
  ts = rest ∨ ∃ t l mid, ts = t :: mid ∧ joinLevel? t = some l ∧ Operands Closed mid rest

/-- An expression can be completed here. -/
def Completable (ts : List Token) : Prop :=
  ∃ last, Stops last ∧ Onward ts last

theorem Completable.of_stops (h : Stops ts) : Completable ts :=
  ⟨ts, h, .inl rfl⟩

theorem Completable.not_opens (h : Completable ts) : ¬ Opens ts := by
  obtain ⟨last, hlast, rfl | ⟨t, l, mid, rfl, hjoin, -⟩⟩ := h
  · exact hlast.2
  · exact (joins_cons hjoin mid).not_opens

theorem Onward.eq_of_not_joins {rest : List Token} (h : Onward ts rest) (hts : ¬ Joins ts) :
    ts = rest := by
  obtain rfl | ⟨t, l, mid, rfl, hjoin, -⟩ := h
  · rfl
  · exact absurd (joins_cons hjoin mid) hts

section

variable {negates : List Token → List Token → Prop} {l : Level} {e : Expr}
  {ts rest last : List Token}

/-- The operands of an expression and those behind it are one row. -/
theorem closed_of_onward (h : Spells negates (.expr l e) ts rest) (hlast : Stops last)
    (honward : Onward rest last) : Operands Closed ts last := by
  have hrow := operands_of_spells h
  obtain rfl | ⟨t, l, mid, rfl, hjoin, hmid⟩ := honward
  · exact hrow.closed hlast.2
  · exact (hrow.append hjoin (hmid.mono fun _ _ hclosed => hclosed.1)).closed hlast.2

/-- An expression can be completed in front of an operator with an operand behind it. -/
theorem Completable.join {l' : Level} (hjoin : joinLevel? t = some l')
    (h : Spells negates (.expr l e) ts rest) (hrest : Completable rest) :
    Completable (t :: ts) := by
  obtain ⟨last, hlast, honward⟩ := hrest
  exact ⟨last, hlast, .inr ⟨t, l', ts, rfl, hjoin, closed_of_onward h hlast honward⟩⟩

end

/-! ### Layers -/

/-- A parser reads a layer of expressions, as long as there are few enough tokens. What it yields is
an expression in which negations extend as far as they can, and no operator of the layer stands
behind it. A row of operands is never refused, and an expression of the layer with such negations is
what is found. -/
structure ReadsLevel (p : Parser Expr) (l : Level) (k : Nat) : Prop where
  sound : ∀ c, c.tokens.length < k → Yields p c fun e c' =>
    Spells Longest (.expr l e) c.values c'.values ∧ Operands Firm c.values c'.values ∧
      ¬ Extends l c'.values
  complete : ∀ c rest, c.tokens.length < k → Operands Closed c.values rest → Stops rest →
    Reaches p c fun _ ts => Onward ts rest
  exact : ∀ c e rest, c.tokens.length < k → Spells Longest (.expr l e) c.values rest →
    Completable rest → ¬ Extends l rest → Reaches p c fun e' ts => e' = e ∧ ts = rest
  soft : ∀ c ts, c.tokens.length < k → c.values = .closeParen :: ts → ∃ e, p c = .error (.soft e)

section

variable {operand : Parser Expr} {l : Level} {k : Nat}
variable {c : Cursor} {n : Nat} {left : Expr} {rest : List Token}

theorem length_lt_of_firm {c' : Cursor} (h : Operands Firm c.values c'.values) :
    c'.tokens.length < c.tokens.length := by
  simpa only [Cursor.length_values] using h.length_lt fun _ _ hfirm => hfirm.1

theorem chainFrom_sound (hoperand : ReadsLevel operand l.tighter k) (hc : c.tokens.length < k)
    (hn : c.tokens.length < n) (hleft : Spells Longest (.expr l left) ts c.values)
    (hrow : Operands Firm ts c.values) (hextends : ¬ Extends l.tighter c.values) :
    Yields (chainFrom (operator? l) operand n left) c fun e c' =>
      Spells Longest (.expr l e) ts c'.values ∧ Operands Firm ts c'.values ∧
      ¬ Extends l c'.values := by
  induction n generalizing left c with
  | zero => exact absurd hn (Nat.not_lt_zero _)
  | succ n ih =>
    refine .accept_bind (fun t f c₁ hf hvalues => ?_) fun hnone =>
      .pure ⟨hleft, hrow, not_extends_iff.2 ⟨hextends, hnone⟩⟩
    have hlength := Cursor.length_of_values_eq_cons hvalues
    rw [hvalues] at hleft hrow
    refine (hoperand.sound c₁ (by omega)).harden.bind fun right c₂ hright => ?_
    obtain ⟨hspells, hfirm, hextends'⟩ := hright
    have hlt := length_lt_of_firm hfirm
    exact ih (by omega) (by omega) (spells_of_operator? hf hleft hspells)
      (hrow.append (joinLevel?_of_operator? hf) hfirm) hextends'

theorem reaches_chainFrom (hoperand : ReadsLevel operand l.tighter k) (hc : c.tokens.length < k)
    (hn : c.tokens.length < n) (hrest : Stops rest) (h : Onward c.values rest) :
    Reaches (chainFrom (operator? l) operand n left) c fun _ ts => Onward ts rest := by
  induction n generalizing left c with
  | zero => exact absurd hn (Nat.not_lt_zero _)
  | succ n ih =>
    by_cases hnone : ∀ t ∈ c.values.head?, operator? l t = none
    · exact .bind_of_eq_ok (accept_of_head hnone) (.pure h)
    · simp only [not_forall] at hnone
      obtain ⟨t, ht, hsome⟩ := hnone
      obtain ⟨f, hf⟩ := Option.ne_none_iff_exists'.1 hsome
      have hjoins : Joins c.values := ⟨t, ht, by rw [joinLevel?_of_operator? hf]; rfl⟩
      obtain heq | ⟨t', l', mid, hvalues, -, hmid⟩ := h
      · rw [heq] at hjoins
        exact absurd hjoins hrest.1
      · obtain rfl : t' = t := by
          rw [hvalues] at ht
          exact Option.some.inj ht
        refine (reaches_accept hvalues hf).bind fun r c₁ hr => ?_
        obtain ⟨rfl, rfl⟩ := hr
        have hlength := Cursor.length_of_values_eq_cons hvalues
        obtain ⟨right, c₂, hright, honward⟩ := hoperand.complete c₁ rest (by omega) hmid hrest
        have hlt := length_lt_of_firm (hoperand.sound c₁ (by omega) right c₂ hright).2.1
        exact .bind_of_eq_ok (harden_eq_ok.2 hright) (ih (by omega) (by omega) honward)

/-- The parser of a chain comes to where some tokens are left, with an expression in front of
them. -/
def ChainsTo (operand : Parser Expr) (l : Level) (k : Nat) (c : Cursor) (e : Expr)
    (rest : List Token) : Prop :=
  ∃ n c', c'.values = rest ∧ c'.tokens.length < k ∧ c'.tokens.length < n ∧
    chain (operator? l) operand c = chainFrom (operator? l) operand n e c'

/-- The parser of a chain takes an operator and the operand behind it. -/
theorem ChainsTo.step (hoperand : ReadsLevel operand l.tighter k) {right : Expr} {mid : List Token}
    (hf : operator? l t = some f) (hright : Spells Longest (.expr l.tighter right) mid rest)
    (hrest : Completable rest) (hextends : ¬ Extends l.tighter rest)
    (hleft : ChainsTo operand l k c left (t :: mid)) :
    ChainsTo operand l k c (f left right) rest := by
  obtain ⟨n, c₀, hvalues, hc, hn, hchain⟩ := hleft
  obtain ⟨n, rfl⟩ : ∃ m, n = m + 1 := ⟨n - 1, by omega⟩
  obtain ⟨_, c₁, haccept, rfl, rfl⟩ := reaches_accept hvalues hf
  have hlength := Cursor.length_of_values_eq_cons hvalues
  obtain ⟨e, c₂, hparse, he, rfl⟩ := hoperand.exact c₁ right rest (by omega) hright hrest hextends
  rw [he] at hparse
  have hlt := hright.length_add_least_le
  simp only [Phrase.least, Cursor.length_values] at hlt
  refine ⟨n, c₂, rfl, by omega, by omega, hchain.trans ?_⟩
  exact (bind_of_ok haccept).trans (bind_of_ok (harden_eq_ok.2 hparse))

theorem not_extends_operator? {mid : List Token} (hl : 0 < rank l) (hf : operator? l t = some f) :
    ¬ Extends l.tighter (t :: mid) := by
  rintro ⟨t', ht', l', hl', hle⟩
  cases ht'
  obtain rfl : l = l' := Option.some.inj ((joinLevel?_of_operator? hf).symm.trans hl')
  rw [rank_tighter] at hle
  omega

/-- The parser of a chain comes to where an expression of the layer ends. -/
theorem chainsTo_of_spells (hoperand : ReadsLevel operand l.tighter k) (hl : 0 < rank l)
    (hc : c.tokens.length < k) (h : Spells Longest (.expr l e) c.values rest)
    (hrest : Completable rest) (hextends : ¬ Extends l.tighter rest) :
    ChainsTo operand l k c e rest := by
  generalize hts : c.values = ts at h
  generalize hph : Phrase.expr l e = ph at h
  -- along the left operands; every right operand is one more round of the loop
  induction h generalizing e with
  | tighter h' =>
    cases hph
    subst hts
    obtain ⟨e', c', hc', he, rfl⟩ := hoperand.exact c _ _ hc h' hrest hextends
    rw [he] at hc'
    have hlt := h'.length_add_least_le
    simp only [Phrase.least, Cursor.length_values] at hlt
    exact ⟨c'.tokens.length + 1, c', rfl, by omega, Nat.lt_succ_self _, bind_of_ok hc'⟩
  | compare op _ hright ih _ =>
    cases hph
    have hf := operator?_compare op
    have hleft := ih (.join (joinLevel?_of_operator? hf) hright hrest)
      (not_extends_operator? hl hf) hts rfl
    exact hleft.step hoperand hf hright hrest hextends
  | binary op _ hright ih _ =>
    cases hph
    have hf := operator?_binary op
    have hleft := ih (.join (joinLevel?_of_operator? hf) hright hrest)
      (not_extends_operator? hl hf) hts rfl
    exact hleft.step hoperand hf hright hrest hextends
  | _ => cases hph <;> cases hl

/-- A chain reads its layer if its operands are read. -/
theorem ReadsLevel.chain (hoperand : ReadsLevel operand l.tighter k) (hl : 0 < rank l) :
    ReadsLevel (Parser.chain (operator? l) operand) l k where
  sound c hc := by
    refine (hoperand.sound c hc).bind fun left c₁ hleft => ?_
    obtain ⟨hspells, hfirm, hextends⟩ := hleft
    have hlt := length_lt_of_firm hfirm
    exact chainFrom_sound hoperand (by omega) (Nat.lt_succ_self _) (.tighter hspells) hfirm hextends
  complete c rest hc h hrest := by
    obtain ⟨left, c₁, hleft, honward⟩ := hoperand.complete c rest hc h hrest
    have hlt := length_lt_of_firm (hoperand.sound c hc left c₁ hleft).2.1
    refine Reaches.bind_of_eq_ok hleft (Reaches.rounds ?_)
    exact reaches_chainFrom hoperand (by omega) (Nat.lt_succ_self _) hrest honward
  exact c e rest hc h hrest hextends := by
    obtain ⟨htighter, hnone⟩ := not_extends_iff.1 hextends
    obtain ⟨n, c', rfl, -, hn, hchain⟩ := chainsTo_of_spells hoperand hl hc h hrest htighter
    obtain ⟨n, rfl⟩ : ∃ m, n = m + 1 := ⟨n - 1, by omega⟩
    refine ⟨e, c', ?_, rfl, rfl⟩
    rw [hchain]
    exact bind_of_ok (accept_of_head hnone)
  soft c ts hc h := by
    obtain ⟨e, he⟩ := hoperand.soft c ts hc h
    exact ⟨e, bind_of_error he⟩

end

end Firestorm.Parser
