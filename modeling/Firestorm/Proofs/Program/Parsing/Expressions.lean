import Firestorm.Proofs.Program.Parsing.Layers

/-!
# Reading expressions

An expression is read as the grammar says. A primary expression may hold whole expressions, which
are read with less depth, so that the facts about operands are stated for any parser that reads the
comparisons inside. A negation reads a whole comparison, and goes as far as one can go.

Two things are known about how expressions are read. Every expression is read up to its end, if what
stands behind it cannot continue it. And where its negations extend as far as they can, its tree is
found as well. Both are statements of one form, `Parser.ReadsExprs`, with a flag that says whether
the tree is known.

## Main definitions

* `Parser.ReadsExprs`, `Parser.ReadsExpr`.

## Main results

* `Parser.expr_sound`.
* `Parser.readsLevel_unary`: operands are read, if the comparisons inside are.
* `Parser.readsExpr_any`, `Parser.readsExpr_longest`: expressions are read.
-/

namespace Firestorm.Parser

open Fallible Grammar

variable {negates : List Token → List Token → Prop} {rest : List Token} {c : Cursor} {e : Expr}

/-! ### Operands -/

theorem commaList_of_arguments {es : List Expr} {ts : List Token}
    (h : Spells negates (.arguments es) ts rest) :
    CommaList (fun e => Spells negates (.expr .comparison e)) es ts rest := by
  generalize hph : Phrase.arguments es = ph at h
  induction h generalizing es with
  | noArguments =>
    cases hph
    exact .nil
  | lastArgument h =>
    cases hph
    exact .last h
  | moreArguments h _ _ ih =>
    cases hph
    exact .more h (ih rfl)
  | _ => cases hph

theorem arguments_of_commaList {es : List Expr} {ts : List Token}
    (h : CommaList (fun e => Spells negates (.expr .comparison e)) es ts rest) :
    Spells negates (.arguments es) ts rest := by
  induction h with
  | nil => exact .noArguments
  | last h => exact .lastArgument h
  | more h _ ih => exact .moreArguments h ih

/-- A parser reads the expressions of a grammar, as long as there are few enough tokens; it finds
their trees if the condition holds. -/
def ReadsExprs (negates : List Token → List Token → Prop) (X : Prop) (p : Parser Expr)
    (k : Nat) : Prop :=
  ∀ c e rest, c.tokens.length < k → Spells negates (.expr .comparison e) c.values rest →
    Stops rest → Reaches p c fun e' ts => ts = rest ∧ (X → e' = e)

theorem stops_cons {t : Token} (hjoin : joinLevel? t = none) (hopens : opens t = false)
    (ts : List Token) : Stops (t :: ts) := by
  constructor
  · rintro ⟨t', ht', hjoins⟩
    cases ht'
    rw [hjoin] at hjoins
    cases hjoins
  · rintro ⟨t', ht', hopens'⟩
    cases ht'
    rw [hopens] at hopens'
    cases hopens'

section

variable {nested : Parser Expr} {k : Nat}
variable {c c' : Cursor} {e : Expr} {rest : List Token} {t : Token} {n : Nat}

theorem ReadsLevel.readsExprs_any (h : ReadsLevel nested .comparison k) :
    ReadsExprs Any False nested k := by
  intro c e rest hc hspells hrest
  obtain ⟨e', c', hp, honward⟩ :=
    h.complete c rest hc ((operands_of_spells hspells).closed hrest.2) hrest
  have hextends := (h.sound c hc e' c' hp).2.2
  exact ⟨e', c', hp, honward.eq_of_not_joins (extends_comparison_iff.not.1 hextends), False.elim⟩

theorem ReadsLevel.readsExprs_longest (h : ReadsLevel nested .comparison k) :
    ReadsExprs Longest True nested k := by
  intro c e rest hc hspells hrest
  obtain ⟨e', c', hp, he, hc'⟩ := h.exact c e rest hc hspells (.of_stops hrest)
    (extends_comparison_iff.not.2 hrest.1)
  exact ⟨e', c', hp, hc', fun _ => he⟩

theorem primary_sound (hnested : ReadsLevel nested .comparison k) (hc : c.tokens.length < k + 1) :
    Yields (primary nested) c fun e c' => Spells Longest (.expr .primary e) c.values c'.values := by
  refine yields_next.bind fun t c₁ hvalues => ?_
  have hlength := Cursor.length_of_values_eq_cons hvalues
  rw [hvalues]
  have hexpr : ∀ c : Cursor, c.tokens.length < k → Yields (harden nested) c fun e c' =>
      Spells Longest (.expr .comparison e) c.values c'.values :=
    fun c hc => ((hnested.sound c hc).mono fun _ _ he => he.1).harden
  cases t with
  | int value => exact .pure (.literal (.number value))
  | str content => exact .pure (.literal (.str content))
  | chr byte => exact .pure (.literal (.chr byte))
  | openParen =>
    refine (hexpr c₁ (by omega)).bind fun e c₂ he => yields_expect.bind fun _ c₃ hclose => .pure ?_
    rw [hclose] at he
    exact .parenthesised he
  | id name =>
    refine .peek_bind ?_
    split
    · refine yields_expect.bind fun _ c₂ hopen => ?_
      have hlength₂ := Cursor.length_of_values_eq_cons hopen
      rw [hopen]
      have hlist := commaSeparated_sound (c := c₂)
        (E := fun e => Spells Longest (.expr .comparison e))
        (fun c hc => (hnested.sound c hc).mono fun _ _ he => ⟨he.1, length_lt_of_firm he.2.1⟩)
          (by omega)
      refine hlist.bind fun es c₃ hes => yields_expect.bind fun _ c₄ hclose => .pure ?_
      rw [hclose] at hes
      exact .call name (arguments_of_commaList hes)
    · refine yields_expect.bind fun _ c₂ hopen => ?_
      have hlength₂ := Cursor.length_of_values_eq_cons hopen
      rw [hopen]
      refine (hexpr c₂ (by omega)).bind fun i c₃ hi => yields_expect.bind fun _ c₄ hclose =>
        .pure ?_
      rw [hclose] at hi
      exact .index name hi
    · exact .pure (.lookup name)
  | _ => exact .of_error rfl

/-- A primary expression is read, unless it is a name with a bracket behind it. -/
theorem reaches_primary {X : Prop} (hnested : ReadsExprs negates X nested k)
    (hsoft : ∀ c ts, c.tokens.length < k → c.values = .closeParen :: ts → ∃ e,
      nested c = .error (.soft e))
    (hc : c.tokens.length < k + 1) (h : Spells negates (.expr .primary e) c.values rest)
    (hrest : ∀ name, c.values = .id name :: rest → ¬ Opens rest) :
    Reaches (primary nested) c fun e' ts => ts = rest ∧ (X → e' = e) := by
  rcases h.primary_cases with ⟨value, rfl, hvalues⟩ | ⟨ts, hvalues, h⟩ | ⟨name, rfl, hvalues⟩ |
    ⟨name, i, ts, rfl, hvalues, h⟩ | ⟨name, es, ts, rfl, hvalues, h⟩
  · refine (reaches_next hvalues).bind fun t c₁ ht => ?_
    obtain ⟨rfl, hc₁⟩ := ht
    cases value <;> exact .pure ⟨hc₁, fun _ => rfl⟩
  · refine (reaches_next hvalues).bind fun t c₁ ht => ?_
    obtain ⟨rfl, rfl⟩ := ht
    have hlength := Cursor.length_of_values_eq_cons hvalues
    refine (hnested c₁ e _ (by omega) h (stops_cons rfl rfl _)).harden.bind fun e' c₂ he' => ?_
    exact (reaches_expect he'.1).bind fun _ c₃ hc₃ => .pure ⟨hc₃, he'.2⟩
  · refine (reaches_next hvalues).bind fun t c₁ ht => ?_
    obtain ⟨rfl, rfl⟩ := ht
    refine .bind_of_eq_ok (peek?_eq c₁) ?_
    have hopens := hrest name hvalues
    split
    · next hhead => exact absurd ⟨_, hhead, rfl⟩ hopens
    · next hhead => exact absurd ⟨_, hhead, rfl⟩ hopens
    · exact .pure ⟨rfl, fun _ => rfl⟩
  · refine (reaches_next hvalues).bind fun t c₁ ht => ?_
    obtain ⟨rfl, hc₁⟩ := ht
    refine .bind_of_eq_ok (peek?_eq c₁) ?_
    rw [hc₁]
    refine (reaches_expect hc₁).bind fun _ c₃ hc₃ => ?_
    subst hc₃
    have hlength := congrArg List.length hvalues
    simp only [Cursor.length_values, List.length_cons] at hlength
    refine (hnested c₃ i _ (by omega) h (stops_cons rfl rfl _)).harden.bind fun i' c₄ hi' => ?_
    refine (reaches_expect hi'.1).bind fun _ c₅ hc₅ => .pure ⟨hc₅, fun x => ?_⟩
    rw [hi'.2 x]
  · refine (reaches_next hvalues).bind fun t c₁ ht => ?_
    obtain ⟨rfl, hc₁⟩ := ht
    refine .bind_of_eq_ok (peek?_eq c₁) ?_
    rw [hc₁]
    refine (reaches_expect hc₁).bind fun _ c₃ hc₃ => ?_
    subst hc₃
    have hlength := congrArg List.length hvalues
    simp only [Cursor.length_values, List.length_cons] at hlength
    have helement : ∀ c a t r, c.tokens.length < k → t = .comma ∨ t = .closeParen →
        Spells negates (.expr .comparison a) c.values (t :: r) →
        Reaches nested c fun a' ts => ts = t :: r ∧ (X → a' = a) := by
      rintro c a t r hc (rfl | rfl) ha
      · exact hnested c a _ hc ha (stops_cons rfl rfl _)
      · exact hnested c a _ hc ha (stops_cons rfl rfl _)
    refine (reaches_commaSeparated helement (fun _ _ _ ha => ha.length_add_least_le)
      (by omega) hsoft (commaList_of_arguments h)).bind fun es' c₄ hes' => ?_
    refine (reaches_expect hes'.1).bind fun _ c₅ hc₅ => .pure ⟨hc₅, fun x => ?_⟩
    rw [hes'.2 x]

/-- A primary expression that has been read could not have been read otherwise. -/
theorem firm_of_primary (hnested : ReadsLevel nested .comparison k) (hc : c.tokens.length < k + 1)
    (h : primary nested c = .ok (e, c')) : Firm c.values c'.values := by
  have hspells := primary_sound hnested hc e c' h
  refine ⟨⟨e, hspells.any⟩, ?_⟩
  rintro rest ⟨e', he'⟩
  by_cases hopen : ∃ name, c.values = .id name :: rest ∧ Opens rest
  · obtain ⟨name, hvalues, hopens⟩ := hopen
    rw [hvalues] at hspells
    rcases hspells.primary_cases with ⟨value, -, hts⟩ | ⟨_, hts, -⟩ | ⟨_, -, hts⟩ |
      ⟨_, _, ts, -, hts, hi⟩ | ⟨_, _, ts, -, hts, hes⟩
    · obtain ⟨hts, -⟩ := List.cons.inj hts
      cases value <;> cases hts
    · cases hts
    · exact .inl (List.cons.inj hts).2.symm
    · have hlt := hi.length_add_least_le
      obtain ⟨-, rfl⟩ := List.cons.inj hts
      simp only [List.length_cons] at hlt
      exact .inr ⟨by rw [List.length_cons]; omega, hopens⟩
    · have hlt := hes.length_add_least_le
      obtain ⟨-, rfl⟩ := List.cons.inj hts
      simp only [List.length_cons] at hlt
      exact .inr ⟨by rw [List.length_cons]; omega, hopens⟩
  · have hreaches := reaches_primary hnested.readsExprs_any hnested.soft hc he'
      fun name hvalues hopens => hopen ⟨name, hvalues, hopens⟩
    exact .inl (hreaches.of_eq_ok h).1

theorem unaryOp?_eq_some {r : Option UnaryOp} (h : unaryOp? t = some r) :
    (r = none ∧ t = .not) ∨ ∃ op, r = some op ∧ t = op.token := by
  cases t <;> cases h
  · exact .inl ⟨rfl, rfl⟩
  all_goals exact .inr ⟨_, rfl, rfl⟩

theorem unaryOp?_token (op : UnaryOp) : unaryOp? op.token = some (some op) := by
  cases op <;> rfl

theorem unaryOp?_of_leads (h : leads t = false) : unaryOp? t = none := by
  cases t <;> cases h <;> rfl

theorem unaryWithin_of_head (h : ∀ t ∈ c.values.head?, unaryOp? t = none) :
    unaryWithin nested (n + 1) c = primary nested c :=
  bind_of_ok (accept_of_head h)

/-- An operand with no operator in front of it is a primary expression. -/
theorem unaryWithin_of_primary (h : Primary c.values rest) :
    unaryWithin nested (n + 1) c = primary nested c := by
  refine unaryWithin_of_head fun t ht => ?_
  obtain ⟨ts, hts⟩ := List.head?_eq_some_iff.1 ht
  rw [hts] at h
  exact unaryOp?_of_leads h.not_leads

theorem unaryWithin_sound (hnested : ReadsLevel nested .comparison k) (hc : c.tokens.length < k + 1)
    (hn : c.tokens.length < n) : Yields (unaryWithin nested n) c fun e c' =>
      Spells Longest (.expr .unary e) c.values c'.values ∧ Operands Firm c.values c'.values := by
  induction n generalizing c with
  | zero => exact absurd hn (Nat.not_lt_zero _)
  | succ n ih =>
    refine .accept_bind (fun t r c₁ hr hvalues => ?_) fun _ e c' h =>
      ⟨.tighter (primary_sound hnested hc e c' h), .last (firm_of_primary hnested hc h)⟩
    have hlength := Cursor.length_of_values_eq_cons hvalues
    rw [hvalues]
    rcases unaryOp?_eq_some hr with ⟨rfl, rfl⟩ | ⟨op, rfl, rfl⟩
    · refine (hnested.sound c₁ (by omega)).harden.bind fun e c₂ he => .pure ?_
      obtain ⟨hspells, hfirm, hextends⟩ := he
      have hlongest := longest_of_firm hfirm (extends_comparison_iff.not.1 hextends)
      exact ⟨.not hlongest hspells, .lead rfl hfirm⟩
    · exact (ih (by omega) (by omega)).harden.bind fun e c₂ he =>
        .pure ⟨.unary op he.1, .lead (leads_unary op) he.2⟩

theorem leads_cases (h : leads t = true) : t = .not ∨ ∃ op : UnaryOp, t = op.token := by
  cases t <;> cases h
  · exact .inl rfl
  · exact .inr ⟨.bitNot, rfl⟩
  · exact .inr ⟨.plus, rfl⟩
  · exact .inr ⟨.minus, rfl⟩

theorem reaches_unaryWithin (hnested : ReadsLevel nested .comparison k)
    (hc : c.tokens.length < k + 1) (hn : c.tokens.length < n) (h : Operands Closed c.values rest)
    (hrest : Stops rest) : Reaches (unaryWithin nested n) c fun _ ts => Onward ts rest := by
  induction n generalizing c with
  | zero => exact absurd hn (Nat.not_lt_zero _)
  | succ n ih =>
    have hprimary : ∀ mid, Closed c.values mid → Onward mid rest →
        Reaches (unaryWithin nested (n + 1)) c fun _ ts => Onward ts rest := by
      rintro mid ⟨⟨e, he⟩, hopens⟩ honward
      obtain ⟨e', c', hp, rfl, -⟩ :=
        reaches_primary hnested.readsExprs_any hnested.soft hc he fun _ _ => hopens
      exact ⟨e', c', by rw [unaryWithin_of_primary ⟨e, he⟩, hp], honward⟩
    generalize hvalues : c.values = ts at h
    cases h with
    | @lead t ts _ hlead hrow =>
      rcases leads_cases hlead with rfl | ⟨op, rfl⟩
      · refine (reaches_accept (f := unaryOp?) hvalues rfl).bind fun r c₁ hr => ?_
        obtain ⟨rfl, rfl⟩ := hr
        have hlength := Cursor.length_of_values_eq_cons hvalues
        exact (hnested.complete c₁ rest (by omega) hrow hrest).harden.bind fun _ _ honward =>
          .pure honward
      · refine (reaches_accept hvalues (unaryOp?_token op)).bind fun r c₁ hr => ?_
        obtain ⟨rfl, rfl⟩ := hr
        have hlength := Cursor.length_of_values_eq_cons hvalues
        exact (ih (by omega) (by omega) hrow).harden.bind fun _ _ honward => .pure honward
    | last hclosed =>
      subst hvalues
      exact hprimary rest hclosed (.inl rfl)
    | join hclosed hjoin hrow =>
      subst hvalues
      exact hprimary _ hclosed (.inr ⟨_, _, _, rfl, hjoin, hrow⟩)

/-- Behind the longest operand of a negation nothing goes on, if the expression can be completed. -/
theorem stops_of_longest (hnested : ReadsLevel nested .comparison k) (hc : c.tokens.length < k)
    (h : Spells Longest (.expr .comparison e) c.values rest) (hlongest : Longest c.values rest)
    (hrest : Completable rest) : Stops rest := by
  obtain ⟨last, hlast, honward⟩ := hrest
  obtain rfl | ⟨t, l, mid, rfl, hjoin, hmid⟩ := honward
  · exact hlast
  · -- the row of operands that starts with the operand goes on to the end, and is a comparison
    have hrow : Operands Closed c.values last :=
      closed_of_onward h hlast (.inr ⟨t, l, mid, rfl, hjoin, hmid⟩)
    obtain ⟨e', c', hp, honward⟩ := hnested.complete c last hc hrow hlast
    obtain ⟨hspells, -, hextends⟩ := hnested.sound c hc e' c' hp
    obtain rfl := honward.eq_of_not_joins (extends_comparison_iff.not.1 hextends)
    have hle := hlongest e' _ hspells.any
    have hlt := hmid.length_lt fun _ _ hclosed => hclosed.1
    rw [List.length_cons] at hle
    omega

theorem exact_unaryWithin (hnested : ReadsLevel nested .comparison k) (hc : c.tokens.length < k + 1)
    (hn : c.tokens.length < n) (h : Spells Longest (.expr .unary e) c.values rest)
    (hrest : Completable rest) :
    Reaches (unaryWithin nested n) c fun e' ts => e' = e ∧ ts = rest := by
  induction n generalizing c e with
  | zero => exact absurd hn (Nat.not_lt_zero _)
  | succ n ih =>
    rcases h.unary_cases with h | ⟨e', ts, rfl, hvalues, hlongest, h⟩ | ⟨op, e', ts, rfl,
      hvalues, h⟩
    · obtain ⟨e', c', hp, rfl, he⟩ := reaches_primary hnested.readsExprs_longest hnested.soft hc h
        fun _ _ => hrest.not_opens
      exact ⟨e', c', by rw [unaryWithin_of_primary ⟨e, h.any⟩, hp], he trivial, rfl⟩
    · refine (reaches_accept (f := unaryOp?) hvalues rfl).bind fun r c₁ hr => ?_
      obtain ⟨rfl, rfl⟩ := hr
      have hlength := Cursor.length_of_values_eq_cons hvalues
      have hstops := stops_of_longest hnested (by omega) h hlongest hrest
      refine (hnested.readsExprs_longest c₁ e' rest (by omega) h hstops).harden.bind
        fun e'' c₂ he => .pure ⟨?_, he.1⟩
      rw [he.2 trivial]
    · refine (reaches_accept hvalues (unaryOp?_token op)).bind fun r c₁ hr => ?_
      obtain ⟨rfl, rfl⟩ := hr
      have hlength := Cursor.length_of_values_eq_cons hvalues
      refine (ih (by omega) (by omega) h).harden.bind fun e'' c₂ he => .pure ⟨?_, he.2⟩
      rw [he.1]

theorem readsLevel_unary (hnested : ReadsLevel nested .comparison k) :
    ReadsLevel (unary nested) .unary (k + 1) where
  sound c hc e c' h := by
    obtain ⟨hspells, hfirm⟩ := unaryWithin_sound hnested hc (Nat.lt_succ_self _) e c' h
    exact ⟨hspells, hfirm, not_extends_of_rank_eq_zero rfl _⟩
  complete c rest hc h hrest := (reaches_unaryWithin hnested hc (Nat.lt_succ_self _) h hrest).rounds
  exact c e rest hc h hrest _ := (exact_unaryWithin hnested hc (Nat.lt_succ_self _) h hrest).rounds
  soft c ts hc h := by
    obtain ⟨t, c₁, hnext, rfl, -⟩ := reaches_next h
    refine ⟨⟨c₁.offset, .expectedExpr⟩, (unaryWithin_of_head ?_).trans (bind_of_ok hnext)⟩
    simp [h, unaryOp?]

end

/-! ### Expressions -/

theorem readsLevel_exprWithin (k : Nat) : ReadsLevel (exprWithin k) .comparison k := by
  induction k with
  | zero =>
    constructor
    all_goals
      intros
      contradiction
  | succ k ih =>
    have hbitwise : ReadsLevel (bitwise (exprWithin k)) .bitwise (k + 1) :=
      .chain (l := .bitwise) (readsLevel_unary ih) (Nat.zero_lt_succ _)
    have hproduct : ReadsLevel (product (exprWithin k)) .product (k + 1) :=
      .chain (l := .product) hbitwise (Nat.zero_lt_succ _)
    have hsum : ReadsLevel (sum (exprWithin k)) .sum (k + 1) :=
      .chain (l := .sum) hproduct (Nat.zero_lt_succ _)
    exact .chain (l := .comparison) hsum (Nat.zero_lt_succ _)

/-- What has been read is an expression in which negations extend as far as they can. -/
theorem expr_sound : Yields expr c fun e c' =>
    Spells Longest (.expr .comparison e) c.values c'.values :=
  fun e c' h => ((readsLevel_exprWithin _).sound c (Nat.lt_succ_self _) e c' h).1

/-- Expressions in front of something that does not go on are read, with their trees under the
condition. -/
def ReadsExpr (negates : List Token → List Token → Prop) (X : Prop) : Prop :=
  ∀ {c : Cursor} {e : Expr} {rest : List Token},
    Spells negates (.expr .comparison e) c.values rest →
    Stops rest → Reaches expr c fun e' ts => ts = rest ∧ (X → e' = e)

theorem readsExpr_any : ReadsExpr Any False := fun h hrest =>
  ((readsLevel_exprWithin _).readsExprs_any _ _ _ (Nat.lt_succ_self _) h hrest).rounds

/-- An expression in which negations extend as far as they can is the one that is found. -/
theorem readsExpr_longest : ReadsExpr Longest True := fun h hrest =>
  ((readsLevel_exprWithin _).readsExprs_longest _ _ _ (Nat.lt_succ_self _) h hrest).rounds

end Firestorm.Parser
