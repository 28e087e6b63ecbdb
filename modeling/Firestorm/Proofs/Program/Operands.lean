import Mathlib.Tactic.Common
import Firestorm.Proofs.Program.Grammar

/-!
# Expressions as operands between operators

An expression of any layer is a row of operands with operators between them, each of them a primary
expression behind some operators of its own. The layers and the extent of negations decide how the
row becomes a tree, but not where it ends: it goes on as long as an operator stands behind an
operand. So the end of an expression can be discussed without its tree.

The one operand whose end is open is a name, since it may be the start of a call or of an access to
an element.

## Main definitions

* `Grammar.Operands`, `Grammar.Primary`, `Grammar.Closed`, `Grammar.Firm`, `Grammar.Stops`.

## Main results

* `Grammar.operands_of_spells`, `Grammar.longest_of_firm`.
-/

namespace Firestorm.Grammar

/-- The operators that stand in front of an operand. -/
def leads : Token → Bool
  | .not | .bitNot | .plus | .minus => true
  | _ => false

/-- The layer of the operators that stand between operands. -/
def joinLevel? : Token → Option Level
  | .equals | .notEquals | .less | .lessEquals | .greater | .greaterEquals => some .comparison
  | .plus | .minus => some .sum
  | .times | .divide | .modulo => some .product
  | .bitAnd | .bitOr | .bitXor | .shiftLeft | .shiftRight => some .bitwise
  | _ => none

/-- The brackets that make a call or an access of a name in front of them. -/
def opens : Token → Bool
  | .openParen | .openSquare => true
  | _ => false

@[simp] theorem joinLevel?_binary (op : BinaryOp) : joinLevel? op.token = some (level op) := by
  cases op <;> rfl

@[simp] theorem joinLevel?_compare (op : CompareOp) : joinLevel? op.token = some .comparison := by
  cases op <;> rfl

@[simp] theorem leads_unary (op : UnaryOp) : leads op.token = true := by
  cases op <;> rfl

theorem opens_eq_false_of_joinLevel? {t : Token} {l : Level} (h : joinLevel? t = some l) :
    opens t = false := by
  cases t <;> cases h <;> rfl

/-- A bracket stands first that makes a call or an access of a name in front of it. -/
def Opens (ts : List Token) : Prop :=
  ∃ t ∈ ts.head?, opens t = true

/-- An operator stands first that joins operands. -/
def Joins (ts : List Token) : Prop :=
  ∃ t ∈ ts.head?, (joinLevel? t).isSome

/-- What can stand behind a complete expression. -/
def Stops (ts : List Token) : Prop :=
  ¬ Joins ts ∧ ¬ Opens ts

theorem joins_cons {t : Token} {l : Level} (h : joinLevel? t = some l) (ts : List Token) :
    Joins (t :: ts) :=
  ⟨t, rfl, by rw [h]; rfl⟩

theorem Joins.not_opens {ts : List Token} (h : Joins ts) : ¬ Opens ts := by
  rintro ⟨t, ht, hopens⟩
  obtain ⟨t', ht', hjoins⟩ := h
  obtain rfl : t' = t := Option.some.inj (ht'.symm.trans ht)
  obtain ⟨l, hl⟩ := Option.isSome_iff_exists.1 hjoins
  rw [opens_eq_false_of_joinLevel? hl] at hopens
  cases hopens

/-- A row of operands with operators between them, and with operators in front of each. -/
inductive Operands (operand : List Token → List Token → Prop) : List Token → List Token → Prop
  | lead {t ts rest} : leads t = true → Operands operand ts rest → Operands operand (t :: ts) rest
  | last {ts rest} : operand ts rest → Operands operand ts rest
  | join {t l ts mid rest} : operand ts (t :: mid) → joinLevel? t = some l →
      Operands operand mid rest → Operands operand ts rest

/-- A primary expression stands first. -/
def Primary (ts rest : List Token) : Prop :=
  ∃ e, Spells Any (.expr .primary e) ts rest

/-- A primary expression without an open end stands first. -/
def Closed (ts rest : List Token) : Prop :=
  Primary ts rest ∧ ¬ Opens rest

/-- The only primary expression that stands first, apart from a name with a bracket behind it. -/
def Firm (ts rest : List Token) : Prop :=
  Primary ts rest ∧ ∀ rest', Primary ts rest' → rest = rest' ∨ rest.length < rest'.length ∧
    Opens rest'

section

variable {operand operand' : List Token → List Token → Prop} {ts mid rest rest' : List Token}

theorem Operands.mono (hoperand : ∀ ts rest, operand ts rest → operand' ts rest)
    (h : Operands operand ts rest) : Operands operand' ts rest := by
  induction h with
  | lead hlead _ ih => exact .lead hlead ih
  | last hoperand' => exact .last (hoperand _ _ hoperand')
  | join hoperand' hjoin _ ih => exact .join (hoperand _ _ hoperand') hjoin ih

/-- A row goes on behind an operator. -/
theorem Operands.append {t : Token} {l : Level} (h : Operands operand ts (t :: mid))
    (hjoin : joinLevel? t = some l) (h' : Operands operand mid rest) :
    Operands operand ts rest := by
  generalize hend : t :: mid = behind at h
  induction h with
  | lead hlead _ ih => exact .lead hlead (ih hend)
  | last hoperand =>
    subst hend
    exact .join hoperand hjoin h'
  | join hoperand hjoin' _ ih => exact .join hoperand hjoin' (ih hend)

/-! ### Derivations -/

variable {negates : List Token → List Token → Prop} {e : Expr}

/-- The forms of a primary expression. -/
theorem Spells.primary_cases (h : Spells negates (.expr .primary e) ts rest) :
    (∃ value, e = .literal value ∧ ts = value.token :: rest) ∨
    (∃ ts', ts = .openParen :: ts' ∧
      Spells negates (.expr .comparison e) ts' (.closeParen :: rest)) ∨
    (∃ name, e = .lookup name ∧ ts = .id name :: rest) ∨
    (∃ name i ts', e = .index name i ∧ ts = .id name :: .openSquare :: ts' ∧
      Spells negates (.expr .comparison i) ts' (.closeSquare :: rest)) ∨
    ∃ name es ts', e = .call name es ∧ ts = .id name :: .openParen :: ts' ∧
      Spells negates (.arguments es) ts' (.closeParen :: rest) := by
  generalize hph : Phrase.expr .primary e = ph at h
  induction h with
  | @tighter l _ _ _ _ ih =>
    cases hph
    exact ih rfl
  | binary op =>
    injection hph with hlevel
    cases op <;> cases hlevel
  | literal value =>
    cases hph
    exact .inl ⟨value, rfl, rfl⟩
  | parenthesised h' =>
    cases hph
    exact .inr (.inl ⟨_, rfl, h'⟩)
  | lookup name =>
    cases hph
    exact .inr (.inr (.inl ⟨name, rfl, rfl⟩))
  | index name h' =>
    cases hph
    exact .inr (.inr (.inr (.inl ⟨name, _, _, rfl, rfl, h'⟩)))
  | call name h' =>
    cases hph
    exact .inr (.inr (.inr (.inr ⟨name, _, _, rfl, rfl, h'⟩)))
  | _ => cases hph

/-- The forms of an operand. -/
theorem Spells.unary_cases (h : Spells negates (.expr .unary e) ts rest) :
    Spells negates (.expr .primary e) ts rest ∨
    (∃ e' ts', e = .not e' ∧ ts = .not :: ts' ∧ negates ts' rest ∧
      Spells negates (.expr .comparison e') ts' rest) ∨
    ∃ op e' ts', e = .unary op e' ∧ ts = op.token :: ts' ∧
      Spells negates (.expr .unary e') ts' rest := by
  generalize hph : Phrase.expr .unary e = ph at h
  cases h with
  | tighter h' =>
    cases hph
    exact .inl h'
  | binary op =>
    injection hph with hlevel
    cases op <;> cases hlevel
  | not hrest h' =>
    cases hph
    exact .inr (.inl ⟨_, _, rfl, rfl, hrest, h'⟩)
  | unary op h' =>
    cases hph
    exact .inr (.inr ⟨op, _, _, rfl, rfl, h'⟩)
  | _ => cases hph

/-- An expression is a row of operands. -/
theorem operands_of_spells {l : Level} (h : Spells negates (.expr l e) ts rest) :
    Operands Primary ts rest := by
  generalize hph : Phrase.expr l e = ph at h
  induction h generalizing l e with
  | tighter _ ih => exact ih rfl
  | compare op _ _ ih ih' => exact (ih rfl).append (joinLevel?_compare op) (ih' rfl)
  | binary op _ _ ih ih' => exact (ih rfl).append (joinLevel?_binary op) (ih' rfl)
  | not _ _ ih => exact .lead rfl (ih rfl)
  | unary op _ ih => exact .lead (leads_unary op) (ih rfl)
  | literal value => exact .last ⟨_, .literal value⟩
  | parenthesised h' => exact .last ⟨_, .parenthesised h'.any⟩
  | lookup name => exact .last ⟨_, .lookup name⟩
  | index name h' => exact .last ⟨_, .index name h'.any⟩
  | call name h' => exact .last ⟨_, .call name h'.any⟩
  | _ => cases hph

theorem Primary.length_lt (h : Primary ts rest) : rest.length < ts.length := by
  obtain ⟨e, he⟩ := h
  exact he.length_add_least_le

theorem Primary.not_leads {t : Token} (h : Primary (t :: ts) rest) : leads t = false := by
  obtain ⟨e, he⟩ := h
  rcases he.primary_cases with ⟨value, -, hts⟩ | ⟨_, hts, -⟩ | ⟨_, -, hts⟩ | ⟨_, _, _, -, hts, -⟩ |
    ⟨_, _, _, -, hts, -⟩
  · obtain ⟨rfl, -⟩ := List.cons.inj hts
    cases value <;> rfl
  all_goals
    obtain ⟨rfl, -⟩ := List.cons.inj hts
    rfl

theorem Operands.length_lt (h : Operands operand ts rest)
    (hoperand : ∀ ts rest, operand ts rest → Primary ts rest) : rest.length < ts.length := by
  induction h with
  | lead _ _ ih => exact Nat.lt_succ_of_lt ih
  | last h => exact (hoperand _ _ h).length_lt
  | join h _ _ ih =>
    have hlt := (hoperand _ _ h).length_lt
    rw [List.length_cons] at hlt
    omega

/-- In a complete expression no operand has an open end. -/
theorem Operands.closed (h : Operands Primary ts rest) (hrest : ¬ Opens rest) :
    Operands Closed ts rest := by
  induction h with
  | lead hlead _ ih => exact .lead hlead (ih hrest)
  | last h => exact .last ⟨h, hrest⟩
  | join h hjoin _ ih => exact .join ⟨h, (joins_cons hjoin _).not_opens⟩ hjoin (ih hrest)

/-! ### The longest comparison -/

/-- A row of firm operands with no operator behind it ends where no other row goes on. -/
theorem Operands.length_le (h : Operands Firm ts rest) (hrest : ¬ Joins rest)
    (h' : Operands Primary ts rest') : rest.length ≤ rest'.length := by
  have hfirm : ∀ ts rest, Firm ts rest → Primary ts rest := fun _ _ h => h.1
  induction h generalizing rest' with
  | lead hlead hrow ih =>
    cases h' with
    | lead _ hrow' => exact ih hrest hrow'
    | last hprimary => rw [hprimary.not_leads] at hlead; cases hlead
    | join hprimary => rw [hprimary.not_leads] at hlead; cases hlead
  | last hoperand =>
    cases h' with
    | lead hlead => rw [hoperand.1.not_leads] at hlead; cases hlead
    | last hprimary =>
      rcases hoperand.2 _ hprimary with rfl | ⟨hlt, -⟩
      · exact Nat.le_refl _
      · exact Nat.le_of_lt hlt
    | @join _ _ _ mid _ hprimary hjoin _ =>
      have hjoins := joins_cons hjoin mid
      rcases hoperand.2 _ hprimary with rfl | ⟨-, hopens⟩
      · exact absurd hjoins hrest
      · exact absurd hopens hjoins.not_opens
  | @join t l ts mid rest hoperand hjoin hrow ih =>
    have hlt := hrow.length_lt hfirm
    cases h' with
    | lead hlead => rw [hoperand.1.not_leads] at hlead; cases hlead
    | last hprimary =>
      rcases hoperand.2 _ hprimary with rfl | ⟨hlt', -⟩
      · rw [List.length_cons]
        omega
      · rw [List.length_cons] at hlt'
        omega
    | join hprimary hjoin' hrow' =>
      rcases hoperand.2 _ hprimary with heq | ⟨-, hopens⟩
      · obtain ⟨-, rfl⟩ := List.cons.inj heq
        exact ih hrest hrow'
      · exact absurd hopens (joins_cons hjoin' _).not_opens

/-- A row of firm operands with no operator behind it is the longest comparison. -/
theorem longest_of_firm (h : Operands Firm ts rest) (hrest : ¬ Joins rest) : Longest ts rest :=
  fun _ _ h' => h.length_le hrest (operands_of_spells h')

end

end Firestorm.Grammar
