import Firestorm.Proofs.Program.Parsing.Simple

/-!
# Reading statements

A block is read as the grammar says, whatever it holds. Blocks nest, so the facts about the
statements of a block are stated for any way to read the blocks inside, and a block is then treated
by induction on the bound on its depth. A `for` is read as the two statements it stands for.

## Main definitions

* `Parser.ReadsBlocks`.

## Main results

* `Parser.block_sound`, `Parser.reaches_block`.
-/

namespace Firestorm.Parser

open Fallible Grammar

variable {c : Cursor} {body ss : List Stmt}

/-! ### What is read is a statement -/

theorem returnStatement_sound :
    Yields returnStatement c fun s c' => Spells Longest (.statement [s]) c.values c'.values := by
  refine yields_expect.bind fun _ c₁ hreturn => .peek_bind ?_
  rw [hreturn]
  split
  · refine .bind_of_ok rfl (yields_expect.bind fun _ c₂ hend => .pure ?_)
    rw [hend]
    exact .returnNothing
  · have hvalue : Yields (some <$> harden expr) c₁ fun value c' => ∃ e, value = some e ∧
        Spells Longest (.expr .comparison e) c₁.values c'.values :=
      .map (expr_sound.harden.mono fun e _ he => ⟨e, rfl, he⟩)
    refine hvalue.bind fun value c₂ he => yields_expect.bind fun _ c₃ hend => .pure ?_
    obtain ⟨e, rfl, he⟩ := he
    rw [hend] at he
    exact .returnValue he

section

variable {block : Parser (List Stmt)}
  (hblock : ∀ c, Yields block c fun body c' => Spells Longest (.block body) c.values c'.values)
include hblock

theorem conditionalWithin_sound (n : Nat) :
    Yields (conditionalWithin block n) c fun s c' =>
    Spells Longest (.conditional s) c.values c'.values := by
  induction n generalizing c with
  | zero => exact .of_error rfl
  | succ n ih =>
    refine yields_expect.bind fun _ c₁ hif => expr_sound.harden.bind fun e c₂ he => ?_
    rw [hif]
    refine (hblock c₂).bind fun body c₃ hbody =>
      .acceptToken_bind (fun c₄ helse => .peek_bind ?_) fun _ =>
      .pure (.ifThen he hbody)
    rw [helse] at hbody
    split
    · exact ih.bind fun s c₅ hs => .pure (.elseIf he hbody hs)
    · exact (hblock c₄).bind fun otherwise c₅ hotherwise => .pure (.ifElse he hbody hotherwise)

theorem whileStatement_sound :
    Yields (whileStatement block) c fun s c' =>
    Spells Longest (.statement [s]) c.values c'.values := by
  refine yields_expect.bind fun _ c₁ hwhile => expr_sound.harden.bind fun e c₂ he => ?_
  rw [hwhile]
  exact (hblock c₂).bind fun body c₃ hbody => .pure (.while_ he hbody)

theorem doWhileStatement_sound :
    Yields (doWhileStatement block) c fun s c' =>
    Spells Longest (.statement [s]) c.values c'.values := by
  refine yields_expect.bind fun _ c₁ hdo => (hblock c₁).bind fun body c₂ hbody => ?_
  refine yields_expect.bind fun _ c₃ hwhile => expr_sound.harden.bind fun e c₄ he => ?_
  refine yields_expect.bind fun _ c₅ hend => .pure ?_
  rw [hwhile] at hbody
  rw [hend] at he
  rw [hdo]
  exact .doWhile hbody he

theorem loopStatement_sound :
    Yields (loopStatement block) c fun s c' =>
    Spells Longest (.statement [s]) c.values c'.values := by
  refine yields_expect.bind fun _ c₁ hloop => (hblock c₁).bind fun body c₂ hbody => .pure ?_
  rw [hloop]
  exact .loop hbody

theorem forStatement_sound :
    Yields (forStatement block) c fun ss c' =>
    Spells Longest (.statement ss) c.values c'.values := by
  refine yields_expect.bind fun _ c₁ hfor => yields_expect.bind fun _ c₂ hopen => ?_
  refine simple_sound.bind fun init c₃ hinit => yields_expect.bind fun _ c₄ hsemicolon => ?_
  refine expr_sound.harden.bind fun e c₅ he => yields_expect.bind fun _ c₆ hsemicolon' => ?_
  refine simple_sound.bind fun update c₇ hupdate => yields_expect.bind fun _ c₈ hclose => ?_
  refine (hblock c₈).bind fun body c₉ hbody => .pure ?_
  rw [hsemicolon] at hinit
  rw [hsemicolon'] at he
  rw [hclose] at hupdate
  rw [hfor, hopen]
  exact .for_ hinit he hupdate hbody

theorem statement_sound :
    Yields (statement block) c fun ss c' => Spells Longest (.statement ss) c.values c'.values := by
  refine .peek_bind ?_
  split
  · exact .of_error rfl
  · exact returnStatement_sound.bind fun s _ hs => .pure hs
  · refine Yields.bind (Q := fun s c' => Spells Longest (.conditional s) c.values c'.values) ?_
      fun s _ hs =>
      .pure (.conditional hs)
    exact conditionalWithin_sound hblock (c.tokens.length + 1)
  · exact (whileStatement_sound hblock).bind fun s _ hs => .pure hs
  · exact (doWhileStatement_sound hblock).bind fun s _ hs => .pure hs
  · exact (loopStatement_sound hblock).bind fun s _ hs => .pure hs
  · exact forStatement_sound hblock
  · exact Yields.bind (Q := fun _ _ => True) (fun _ _ _ => trivial) fun _ _ _ => .of_error rfl
  · refine simple_sound.bind fun s c₁ hs => yields_expect.bind fun _ c₂ hend => .pure ?_
    rw [hend] at hs
    exact .simple hs

theorem statementsWithin_sound (n : Nat) : Yields (statementsWithin block n) c fun ss c' =>
    Spells Longest (.statements ss) c.values (.closeCurly :: c'.values) := by
  induction n generalizing c with
  | zero => exact .of_error rfl
  | succ n ih =>
    refine .attempt_bind ((statement_sound hblock).mono fun first c₁ hfirst => ?_) fun failure => ?_
    · exact ih.bind fun others c₂ hothers => .pure (.someStatements hfirst hothers)
    · cases failure with
      | soft e =>
        refine Yields.bind (fun u c₁ hend => yields_expect u c₁ (mapError_eq_ok.1 hend))
          fun _ c₁ hend => .pure ?_
        rw [hend]
        exact .noStatements
      | hard e => exact .of_error rfl

end

theorem blockWithin_sound (n : Nat) (c : Cursor) :
    Yields (blockWithin n) c fun body c' => Spells Longest (.block body) c.values c'.values := by
  induction n generalizing c with
  | zero => exact .of_error rfl
  | succ n ih =>
    refine yields_expect.bind fun _ c₁ hopen body c' h => ?_
    rw [hopen]
    exact .block (statementsWithin_sound ih _ body c' h)

/-- What is read as a block is one, and each negation in it extends as far as it can. -/
theorem block_sound : Yields block c fun body c' =>
    Spells Longest (.block body) c.values c'.values :=
  fun body c' h => blockWithin_sound _ c body c' h

/-! ### Statements are read -/

/-- A parser reads the blocks that start with few tokens, with their trees under the condition. -/
def ReadsBlocks (negates : List Token → List Token → Prop) (X : Prop) (block : Parser (List Stmt))
    (k : Nat) : Prop :=
  ∀ c body rest, c.tokens.length < k → Spells negates (.block body) c.values rest →
    Reaches block c fun body' ts => ts = rest ∧ (X → body' = body)

section

variable {negates : List Token → List Token → Prop} {ts rest : List Token}

theorem openCurly_of_block (h : Spells negates (.block body) ts rest) :
    ∃ ts', ts = .openCurly :: ts' := by
  cases h with
  | block => exact ⟨_, rfl⟩

theorem stops_of_block (h : Spells negates (.block body) ts rest) : Stops ts := by
  obtain ⟨ts', rfl⟩ := openCurly_of_block h
  exact stops_cons rfl rfl ts'

theorem if_of_conditional {s : Stmt} (h : Spells negates (.conditional s) ts rest) :
    ∃ ts', ts = .keyword .if_ :: ts' := by
  cases h with
  | ifThen | ifElse | elseIf => exact ⟨_, rfl⟩

/-- No statement starts with `else`. -/
theorem head_statement_ne_else (h : Spells negates (.statement ss) ts rest) :
    ts.head? ≠ some (.keyword .else_) := by
  cases h with
  | simple h =>
    obtain ⟨t, ts', rfl, ht⟩ := startsSimple_of_spells h
    rintro ⟨⟩
    cases ht
  | conditional h =>
    obtain ⟨ts', rfl⟩ := if_of_conditional h
    simp
  | returnNothing | returnValue | while_ | doWhile | loop | for_ => simp

theorem head_statements_ne_else (h : Spells negates (.statements ss) ts (.closeCurly :: rest)) :
    ts.head? ≠ some (.keyword .else_) := by
  generalize hlast : Token.closeCurly :: rest = last at h
  cases h with
  | noStatements =>
    rw [← hlast]
    simp
  | someStatements h => exact head_statement_ne_else h

/-- The brace behind the last statement of a block is no statement. -/
theorem statement_closeCurly (block : Parser (List Stmt))
    (hhead : c.values.head? = some .closeCurly) : ∃ e, statement block c = .error (.soft e) := by
  refine ⟨⟨(c.skip 1).offset, .expectedStatement⟩, (bind_of_ok (peek?_eq c)).trans ?_⟩
  rw [hhead]
  simp only [discard_bind]
  exact bind_of_ok (next_of_head hhead)

end

section

variable {negates : List Token → List Token → Prop} {X : Prop} {c : Cursor} {rest : List Token}
variable {e : Expr} {ts mid : List Token} {body : List Stmt}

theorem reaches_returnNothing (hvalues : c.values = .keyword .return_ :: .semicolon :: rest) :
    Reaches returnStatement c fun s ts => ts = rest ∧ (X → s = .return_ none) := by
  refine (reaches_expect hvalues).bind fun _ c₁ hc₁ => ?_
  refine .bind_of_eq_ok (peek?_eq c₁) ?_
  rw [hc₁]
  exact (reaches_expect hc₁).bind fun _ c₂ hc₂ => .pure ⟨hc₂, fun _ => rfl⟩

variable (hexpr : ReadsExpr negates X)
include hexpr

theorem reaches_returnValue (hvalues : c.values = .keyword .return_ :: ts)
    (h : Spells negates (.expr .comparison e) ts (.semicolon :: rest)) :
    Reaches returnStatement c fun s ts => ts = rest ∧ (X → s = .return_ (some e)) := by
  refine (reaches_expect hvalues).bind fun _ c₁ hc₁ => ?_
  subst hc₁
  refine .bind_of_eq_ok (peek?_eq c₁) ?_
  obtain ⟨t, ts', hstart, ht⟩ := startsExpr_of_spells h
  have hne : c₁.values.head? ≠ some .semicolon := by
    rw [hstart]
    rintro ⟨⟩
    cases ht
  rw [if_neg hne]
  have hvalue : Reaches (some <$> harden expr) c₁ fun value ts =>
      ts = .semicolon :: rest ∧ (X → value = some e) :=
    .map ((hexpr h (stops_cons rfl rfl _)).harden.mono fun e' ts he =>
      ⟨he.1, fun x => by rw [he.2 x]⟩)
  refine hvalue.bind fun value c₃ hvalue => ?_
  refine (reaches_expect hvalue.1).bind fun _ c₄ hc₄ => .pure ⟨hc₄, fun x => ?_⟩
  rw [hvalue.2 x]

variable {block : Parser (List Stmt)} {k : Nat} (hblock : ReadsBlocks negates X block k)
include hblock

/-- A keyword, a condition and a block are read. -/
theorem reaches_guarded {β : Type} {t : Token} {f : Expr → List Stmt → Parser β}
    {Q : β → List Token → Prop} (hvalues : c.values = t :: ts) (hk : c.tokens.length ≤ k)
    (he : Spells negates (.expr .comparison e) ts mid)
    (hbody : Spells negates (.block body) mid rest)
    (hf : ∀ e' body' c', c'.values = rest → c'.tokens.length < c.tokens.length → (X → e' = e) →
      (X → body' = body) → Reaches (f e' body') c' Q) : Reaches (do
      expect t
      let condition ← harden expr
      let body ← block
      f condition body) c Q := by
  refine (reaches_expect hvalues).bind fun _ c₁ hc₁ => ?_
  subst hc₁
  refine (hexpr he (stops_of_block hbody)).harden.bind fun e' c₂ he' => ?_
  obtain ⟨rfl, he'⟩ := he'
  have hc := Cursor.length_of_values_eq_cons hvalues
  have hcondition := he.length_add_least_le
  have hlength := hbody.length_add_least_le
  simp only [Cursor.length_values, Phrase.least] at hcondition hlength
  refine (hblock c₂ body rest (by omega) hbody).bind fun body' c₃ hbody' => ?_
  obtain ⟨rfl, hbody'⟩ := hbody'
  rw [Cursor.length_values] at hlength
  exact hf e' body' c₃ rfl (by omega) he' hbody'

theorem reaches_conditionalWithin (n : Nat) {s : Stmt}
    (h : Spells negates (.conditional s) c.values rest) (hn : c.tokens.length < n)
    (hk : c.tokens.length ≤ k) (hrest : rest.head? ≠ some (.keyword .else_)) :
    Reaches (conditionalWithin block n) c fun s' ts => ts = rest ∧ (X → s' = s) := by
  induction n generalizing c s with
  | zero => omega
  | succ n ih =>
    generalize hvalues : c.values = first at h
    cases h with
    | ifThen he hbody =>
      refine reaches_guarded hexpr hblock hvalues hk he hbody fun e' body' c₁ hc₁ _ he' hbody' => ?_
      rw [← hc₁] at hrest
      refine .bind_of_eq_ok (acceptToken_of_head hrest) (.pure ⟨hc₁, fun x => ?_⟩)
      rw [he' x, hbody' x]
    | ifElse he hbody hotherwise =>
      refine reaches_guarded hexpr hblock hvalues hk he hbody
        fun e' body' c₁ hc₁ hlt he' hbody' => ?_
      refine (reaches_acceptToken hc₁).bind fun hasElse c₂ hc₂ => ?_
      obtain ⟨rfl, rfl⟩ := hc₂
      have hc₂ := Cursor.length_of_values_eq_cons hc₁
      refine .bind_of_eq_ok (peek?_eq c₂) ?_
      have hne : c₂.values.head? ≠ some (.keyword .if_) := by
        obtain ⟨ts', hts'⟩ := openCurly_of_block hotherwise
        rw [hts']
        simp
      rw [if_neg hne]
      refine (hblock c₂ _ rest (by omega) hotherwise).bind fun otherwise' c₃ ho =>
        .pure ⟨ho.1, fun x => ?_⟩
      rw [he' x, hbody' x, ho.2 x]
    | elseIf he hbody hotherwise =>
      refine reaches_guarded hexpr hblock hvalues hk he hbody
        fun e' body' c₁ hc₁ hlt he' hbody' => ?_
      refine (reaches_acceptToken hc₁).bind fun hasElse c₂ hc₂ => ?_
      obtain ⟨rfl, rfl⟩ := hc₂
      have hc₂ := Cursor.length_of_values_eq_cons hc₁
      refine .bind_of_eq_ok (peek?_eq c₂) ?_
      have hif : c₂.values.head? = some (.keyword .if_) := by
        obtain ⟨ts', hts'⟩ := if_of_conditional hotherwise
        rw [hts']
        rfl
      rw [if_pos hif]
      refine (ih hotherwise (by omega) (by omega)).bind fun s' c₃ hs' => .pure ⟨hs'.1, fun x => ?_⟩
      rw [he' x, hbody' x, hs'.2 x]

theorem reaches_whileStatement (hvalues : c.values = .keyword .while_ :: ts)
    (hk : c.tokens.length ≤ k) (he : Spells negates (.expr .comparison e) ts mid)
    (hbody : Spells negates (.block body) mid rest) :
    Reaches (whileStatement block) c fun s ts => ts = rest ∧ (X → s = .while_ e body) := by
  refine reaches_guarded hexpr hblock hvalues hk he hbody fun e' body' c₁ hc₁ _ he' hbody' =>
    .pure ⟨hc₁, fun x => ?_⟩
  rw [he' x, hbody' x]

theorem reaches_doWhileStatement (hvalues : c.values = .keyword .do_ :: ts)
    (hk : c.tokens.length ≤ k) (hbody : Spells negates (.block body) ts (.keyword .while_ :: mid))
    (he : Spells negates (.expr .comparison e) mid (.semicolon :: rest)) :
    Reaches (doWhileStatement block) c fun s ts => ts = rest ∧ (X → s = .doWhile body e) := by
  refine (reaches_expect hvalues).bind fun _ c₁ hc₁ => ?_
  subst hc₁
  have hlength := Cursor.length_of_values_eq_cons hvalues
  refine (hblock c₁ body _ (by omega) hbody).bind fun body' c₂ hbody' => ?_
  refine (reaches_expect hbody'.1).bind fun _ c₃ hc₃ => ?_
  subst hc₃
  refine (hexpr he (stops_cons rfl rfl _)).harden.bind fun e' c₄ he' => ?_
  refine (reaches_expect he'.1).bind fun _ c₅ hc₅ => .pure ⟨hc₅, fun x => ?_⟩
  rw [he'.2 x, hbody'.2 x]

omit hexpr in
theorem reaches_loopStatement (hvalues : c.values = .keyword .loop :: ts) (hk : c.tokens.length ≤ k)
    (hbody : Spells negates (.block body) ts rest) :
    Reaches (loopStatement block) c fun s ts => ts = rest ∧ (X → s = .loop body) := by
  refine (reaches_expect hvalues).bind fun _ c₁ hc₁ => ?_
  subst hc₁
  have hlength := Cursor.length_of_values_eq_cons hvalues
  refine (hblock c₁ body _ (by omega) hbody).bind fun body' c₂ hbody' =>
    .pure ⟨hbody'.1, fun x => ?_⟩
  rw [hbody'.2 x]

theorem reaches_forStatement {init update : Stmt} {mid' mid'' : List Token}
    (hvalues : c.values = .keyword .for_ :: .openParen :: ts) (hk : c.tokens.length ≤ k)
    (hinit : Spells negates (.simple init) ts (.semicolon :: mid))
    (he : Spells negates (.expr .comparison e) mid (.semicolon :: mid'))
    (hupdate : Spells negates (.simple update) mid' (.closeParen :: mid''))
    (hbody : Spells negates (.block body) mid'' rest) : Reaches (forStatement block) c fun ss ts =>
      ts = rest ∧ (X → ss = [init, .while_ e (body ++ [update])]) := by
  have hlength : mid''.length < c.tokens.length := by
    have h := hinit.length_add_least_le
    have h' := he.length_add_least_le
    have h'' := hupdate.length_add_least_le
    have hc := congrArg List.length hvalues
    simp only [Cursor.length_values, List.length_cons] at h h' h'' hc
    omega
  refine (reaches_expect hvalues).bind fun _ c₁ hc₁ => ?_
  refine (reaches_expect hc₁).bind fun _ c₂ hc₂ => ?_
  subst hc₂
  refine (reaches_simple hexpr hinit rfl).bind fun init' c₃ hinit' => ?_
  refine (reaches_expect hinit'.1).bind fun _ c₄ hc₄ => ?_
  subst hc₄
  refine (hexpr he (stops_cons rfl rfl _)).harden.bind fun e' c₅ he' => ?_
  refine (reaches_expect he'.1).bind fun _ c₆ hc₆ => ?_
  subst hc₆
  refine (reaches_simple hexpr hupdate rfl).bind fun update' c₇ hupdate' => ?_
  refine (reaches_expect hupdate'.1).bind fun _ c₈ hc₈ => ?_
  subst hc₈
  rw [Cursor.length_values] at hlength
  refine (hblock c₈ body rest (by omega) hbody).bind fun body' c₉ hbody' =>
    .pure ⟨hbody'.1, fun x => ?_⟩
  rw [hinit'.2 x, he'.2 x, hupdate'.2 x, hbody'.2 x]

/-- A statement is read, unless it is an `if` with an `else` behind it. -/
theorem reaches_statement (h : Spells negates (.statement ss) c.values rest)
    (hk : c.tokens.length ≤ k) (hrest : rest.head? ≠ some (.keyword .else_)) :
    Reaches (statement block) c fun ss' ts => ts = rest ∧ (X → ss' = ss) := by
  have hsingle : ∀ {p : Parser Stmt} {s : Stmt},
      (Reaches p c fun s' ts => ts = rest ∧ (X → s' = s)) →
      Reaches (do return [← p]) c fun ss' ts => ts = rest ∧ (X → ss' = [s]) := fun hp =>
    hp.bind fun s' c₁ hs' => .pure ⟨hs'.1, fun x => by rw [hs'.2 x]⟩
  refine .bind_of_eq_ok (peek?_eq c) ?_
  generalize hvalues : c.values = first at h
  cases h with
  | @simple s _ _ h =>
    obtain ⟨t, ts', rfl, ht⟩ := startsSimple_of_spells h
    rw [← hvalues] at h
    have hsimple : Reaches (do
        let s ← simple
        expect .semicolon
        return [s]) c fun ss' ts => ts = rest ∧ (X → ss' = [s]) := by
      refine (reaches_simple hexpr h rfl).bind fun s' c₁ hs' => ?_
      refine (reaches_expect hs'.1).bind fun _ c₂ hc₂ => .pure ⟨hc₂, fun x => ?_⟩
      rw [hs'.2 x]
    cases t with
    | keyword k => cases k <;> cases ht <;> exact hsimple
    | closeCurly => cases ht
    | _ => exact hsimple
  | conditional h =>
    obtain ⟨ts', rfl⟩ := if_of_conditional h
    rw [← hvalues] at h
    exact hsingle
      (reaches_conditionalWithin hexpr hblock _ h (Nat.lt_succ_self _) hk hrest).rounds
  | returnNothing => exact hsingle (reaches_returnNothing hvalues)
  | returnValue h => exact hsingle (reaches_returnValue hexpr hvalues h)
  | while_ he hbody => exact hsingle (reaches_whileStatement hexpr hblock hvalues hk he hbody)
  | doWhile hbody he => exact hsingle (reaches_doWhileStatement hexpr hblock hvalues hk hbody he)
  | loop hbody => exact hsingle (reaches_loopStatement hblock hvalues hk hbody)
  | for_ hinit he hupdate hbody =>
    exact reaches_forStatement hexpr hblock hvalues hk hinit he hupdate hbody

theorem reaches_statementsWithin (n : Nat)
    (h : Spells negates (.statements ss) c.values (.closeCurly :: rest)) (hn : c.tokens.length < n)
    (hk : c.tokens.length ≤ k) :
    Reaches (statementsWithin block n) c fun ss' ts => ts = rest ∧ (X → ss' = ss) := by
  induction n generalizing c ss with
  | zero => omega
  | succ n ih =>
    generalize hvalues : c.values = first at h
    generalize hlast : Token.closeCurly :: rest = last at h
    cases h with
    | noStatements =>
      obtain ⟨e, he⟩ := statement_closeCurly block
        (head?_and_values_skip (hvalues.trans hlast.symm)).1
      refine .bind_of_eq_ok (attempt_of_error he) ?_
      obtain ⟨u, c₁, hexpect, hc₁⟩ := reaches_expect (hvalues.trans hlast.symm)
      exact .bind_of_eq_ok (mapError_eq_ok.2 hexpect) (.pure ⟨hc₁, fun _ => rfl⟩)
    | someStatements hfirst hothers =>
      subst hlast
      have hlt := hfirst.length_add_least_le
      rw [← hvalues] at hfirst hlt
      have hnext := head_statements_ne_else hothers
      refine (reaches_statement hexpr hblock hfirst hk hnext).attempt_bind
        fun first' c₁ hfirst' => ?_
      obtain ⟨rfl, hfirst'⟩ := hfirst'
      simp only [Cursor.length_values, Phrase.least] at hlt
      refine (ih hothers (by omega) (by omega)).bind fun others' c₂ hothers' =>
        .pure ⟨hothers'.1, fun x => ?_⟩
      rw [hfirst' x, hothers'.2 x]

end

section

variable {negates : List Token → List Token → Prop} {X : Prop}
  (hexpr : ReadsExpr negates X)
include hexpr

theorem readsBlocks_blockWithin (n : Nat) : ReadsBlocks negates X (blockWithin n) n := by
  induction n with
  | zero =>
    intro c body rest hc
    omega
  | succ n ih =>
    intro c body rest hc h
    generalize hvalues : c.values = first at h
    cases h with
    | block h =>
      refine (reaches_expect hvalues).bind fun _ c₁ hc₁ => ?_
      subst hc₁
      have hlength := Cursor.length_of_values_eq_cons hvalues
      exact (reaches_statementsWithin hexpr ih _ h (Nat.lt_succ_self _) (by omega)).rounds

/-- A block is read, with its tree if expressions are read with theirs. -/
theorem reaches_block {rest : List Token} (h : Spells negates (.block body) c.values rest) :
    Reaches block c fun body' ts => ts = rest ∧ (X → body' = body) :=
  (readsBlocks_blockWithin hexpr _ c body rest (Nat.lt_succ_self _) h).rounds

end

end Firestorm.Parser
