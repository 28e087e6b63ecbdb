import Firestorm.Program.Parser
import Firestorm.Proofs.Program.Parsing.Steps

/-!
# Where errors stand

A parser takes tokens from the front of its cursor, and if it fails its error stands at the last
token that it has taken. An alternative that is tried and dropped leaves the cursor where it was,
and an error that is kept from it stands at a token that the alternative had taken. So every error
of a list of tokens stands at one of them.

It need not be the first token with which no program can go on. A datatype is tried as a whole, so a
bracket that is not closed is blamed on the kind in front of it.

## Main definitions

* `Parser.Advances`: how far a parser has come when it ends.
* `Refuted`: no program starts with the first tokens of a list.

## Main results

* `Parser.Advances.bind`, `Parser.Advances.attempt_bind`: parsers that are built from others.
* `parse_blames_token`: every error stands at a token of the list.
* `parse_blames_kind`: an error at a token with which a program can start.
-/

namespace Firestorm

namespace Parser

variable {α β : Type} {c : Cursor} {w : Nat}

/-! ### Cursors behind tokens -/

namespace Cursor

theorem skip_skip (n m : Nat) (c : Cursor) : (c.skip n).skip m = c.skip (n + m) := by
  induction n generalizing c with
  | zero => rw [Nat.zero_add, skip]
  | succ n ih =>
    obtain ⟨offset, tokens⟩ := c
    rw [Nat.add_right_comm]
    cases tokens with
    | nil => cases m <;> rfl
    | cons t ts => exact ih ⟨t.offset, ts⟩

theorem skip_of_end (h : c.values.head? = none) (n : Nat) : c.skip n = c := by
  obtain ⟨offset, tokens⟩ := c
  obtain rfl : tokens = [] := tokens_eq_nil_of_head? h
  cases n <;> rfl

/-- The offset behind tokens is that of one of them. -/
theorem exists_offset_skip {n : Nat} (hn : 0 < n) (hc : c.tokens ≠ []) :
    ∃ t ∈ c.tokens, (c.skip n).offset = t.offset := by
  induction n generalizing c with
  | zero => exact absurd hn (Nat.lt_irrefl 0)
  | succ n ih =>
    obtain ⟨offset, tokens⟩ := c
    cases tokens with
    | nil => exact absurd rfl hc
    | cons t ts =>
      cases n with
      | zero => exact ⟨t, List.mem_cons_self .., rfl⟩
      | succ n =>
        cases ts with
        | nil => exact ⟨t, List.mem_cons_self .., rfl⟩
        | cons u us =>
          obtain ⟨v, hv, hoffset⟩ :=
            ih (c := ⟨t.offset, u :: us⟩) (Nat.succ_pos n) (List.cons_ne_nil u us)
          exact ⟨v, List.mem_cons_of_mem t hv, hoffset⟩

end Cursor

/-! ### How far parsers come -/

/-- An error stands at the last of some tokens behind a cursor, of which there are at least `w` if
the cursor has as many. -/
def Failure.Blames (w : Nat) (c : Cursor) (f : Failure) : Prop :=
  ∃ n, w ≤ n ∧ f.error.offset = (c.skip n).offset

/-- A parser takes tokens from the front, at least `w` if there are as many. If it fails, its error
stands at the last of them. -/
structure Advances (w : Nat) (p : Parser α) (c : Cursor) : Prop where
  ok : ∀ a c', p c = .ok (a, c') → ∃ n, w ≤ n ∧ c' = c.skip n
  error : ∀ f, p c = .error f → f.Blames w c

namespace Advances

variable {p : Parser α} {g : α → Parser β}

theorem of_ok {a : α} (n : Nat) (hw : w ≤ n) (h : p c = .ok (a, c.skip n)) : Advances w p c where
  ok a' c' h' := by
    cases h.symm.trans h'
    exact ⟨n, hw, rfl⟩
  error f h' := by cases h.symm.trans h'

theorem of_error {f : Failure} (h : p c = .error f) (hf : f.Blames w c) : Advances w p c where
  ok a c' h' := by cases h.symm.trans h'
  error f' h' := by
    cases h.symm.trans h'
    exact hf

/-- Only what a parser does at the cursor matters. -/
theorem of_eq {q : Parser α} (heq : p c = q c) (h : Advances w q c) : Advances w p c where
  ok a c' h' := h.ok a c' (heq.symm.trans h')
  error f h' := h.error f (heq.symm.trans h')

theorem weaken (h : Advances w p c) : Advances 0 p c where
  ok a c' h' := by
    obtain ⟨n, -, heq⟩ := h.ok a c' h'
    exact ⟨n, Nat.zero_le n, heq⟩
  error f h' := by
    obtain ⟨n, -, heq⟩ := h.error f h'
    exact ⟨n, Nat.zero_le n, heq⟩

protected theorem pure (a : α) : Advances 0 (pure a) c :=
  of_ok 0 (Nat.le_refl 0) rfl

theorem fail (e : ParseError) : Advances 0 (Parser.fail e : Parser α) c :=
  of_error rfl ⟨0, Nat.le_refl 0, rfl⟩

/-- A parser behind one that has succeeded. -/
theorem bind_of_ok {a : α} {n : Nat} (hw : w ≤ n) (h : p c = .ok (a, c.skip n))
    (hg : Advances 0 (g a) (c.skip n)) : Advances w (p >>= g) c := by
  constructor
  · intro b c' hb
    rw [Parser.bind_of_ok h] at hb
    obtain ⟨m, -, rfl⟩ := hg.ok b c' hb
    exact ⟨n + m, Nat.le_add_right_of_le hw, Cursor.skip_skip n m c⟩
  · intro f hf
    rw [Parser.bind_of_ok h] at hf
    obtain ⟨m, -, hoffset⟩ := hg.error f hf
    exact ⟨n + m, Nat.le_add_right_of_le hw, by rw [hoffset, Cursor.skip_skip]⟩

/-- One parser after another. -/
protected theorem bind (h : Advances w p c) (hg : ∀ a c', Advances 0 (g a) c') :
    Advances w (p >>= g) c := by
  cases hp : p c with
  | error f => exact of_error (bind_of_error hp) (h.error f hp)
  | ok r =>
    obtain ⟨n, hn, hr⟩ := h.ok r.1 r.2 hp
    exact bind_of_ok (a := r.1) hn (hr ▸ hp) (hg r.1 _)

protected theorem map {f : α → β} (h : Advances w p c) : Advances w (f <$> p) c := by
  rw [← bind_pure_comp]
  exact h.bind fun a _ => .pure (f a)

/-- An error may be replaced by one that stands at a token that was taken, too. -/
theorem mapError {g : Failure → Failure} (h : Advances w p c)
    (hg : ∀ f, f.Blames w c → (g f).Blames w c) : Advances w (fun c => (p c).mapError g) c := by
  cases hp : p c with
  | ok r =>
    obtain ⟨n, hn, hr⟩ := h.ok r.1 r.2 hp
    exact of_ok (a := r.1) n hn (by rw [hp, ← hr]; rfl)
  | error f => exact of_error (by rw [hp]; rfl) (hg f (h.error f hp))

theorem harden (h : Advances w p c) : Advances w (Parser.harden p) c :=
  h.mapError fun _ hf => hf

theorem soften (h : Advances w p c) : Advances w (Parser.soften p) c :=
  h.mapError fun _ hf => hf

theorem rounds {loop : Nat → Parser α} (h : ∀ n, Advances w (loop n) c) :
    Advances w (Parser.rounds loop) c :=
  ⟨(h _).ok, (h _).error⟩

theorem peek_bind {g : Option Token → Parser β} (h : Advances w (g c.values.head?) c) :
    Advances w (peek? >>= g) c :=
  of_eq (Parser.bind_of_ok (peek?_eq c)) h

/-- An alternative leads on from the tokens that it has taken, or from where it began, with an error
that stands at one of those tokens. -/
theorem attempt_bind {g : Except Failure α → Parser β} (h : Advances w p c)
    (hok : ∀ a c', Advances 0 (g (.ok a)) c')
    (herror : ∀ f, f.Blames w c → Advances w (g (.error f)) c) :
    Advances w (attempt p >>= g) c := by
  cases hp : p c with
  | ok r =>
    obtain ⟨n, hn, hr⟩ := h.ok r.1 r.2 hp
    exact bind_of_ok (a := .ok r.1) hn (attempt_of_ok (hr ▸ hp)) (hok r.1 _)
  | error f =>
    exact of_eq (Parser.bind_of_ok (attempt_of_error hp)) (herror f (h.error f hp))

end Advances

/-! ### Parsers of single tokens -/

theorem blames_of_end (h : c.values.head? = none) (e : ParseError) :
    (Failure.hard ⟨c.offset, e⟩).Blames 1 c :=
  ⟨1, Nat.le_refl 1, by rw [Cursor.skip_of_end h]; rfl⟩

theorem advances_next : Advances 1 next c := by
  cases hhead : c.values.head? with
  | none => exact .of_error (next_of_end hhead) (blames_of_end hhead _)
  | some t => exact .of_ok 1 (Nat.le_refl 1) (next_of_head hhead)

theorem advances_expect (token : Token) : Advances 1 (expect token) c := by
  cases hhead : c.values.head? with
  | none => exact .of_error (expect_of_end hhead) (blames_of_end hhead _)
  | some t =>
    by_cases ht : t = token
    · subst ht
      exact .of_ok 1 (Nat.le_refl 1) (expect_of_head hhead)
    · exact .of_error (expect_of_head_ne hhead ht) ⟨1, Nat.le_refl 1, rfl⟩

theorem advances_accept (f : Token → Option α) : Advances 0 (accept f) c := by
  cases hf : c.values.head?.bind f with
  | none => exact .of_ok 0 (Nat.le_refl 0) (accept_of_head (Option.bind_eq_none_iff.1 hf))
  | some a =>
    obtain ⟨t, hhead, ht⟩ := Option.bind_eq_some_iff.1 hf
    exact .of_ok 1 (Nat.zero_le 1) (accept_of_head_eq_some hhead ht)

theorem advances_acceptToken (token : Token) : Advances 0 (acceptToken token) c :=
  (advances_accept _).bind fun _ _ => .pure _

theorem advances_identifier : Advances 1 identifier c := by
  refine advances_next.bind fun t _ => ?_
  cases t with
  | id name => exact .pure name
  | _ => exact .fail _

/-! ### Lists and chains -/

section

variable {p : Parser α}

theorem advances_afterCommas (h : ∀ c, Advances 0 p c) (n : Nat) (c : Cursor) :
    Advances 0 (afterCommas p n) c := by
  induction n generalizing c with
  | zero => exact .pure []
  | succ n ih =>
    refine (advances_acceptToken .comma).bind fun more c₁ => ?_
    cases more with
    | false => exact .pure []
    | true => exact (h c₁).harden.bind fun _ c₂ => (ih c₂).bind fun _ _ => .pure _

theorem advances_commaSeparated (h : ∀ c, Advances 0 p c) (c : Cursor) :
    Advances 0 (commaSeparated p) c := by
  refine (h c).attempt_bind (fun a c₁ => ?_) fun f hf => ?_
  · exact (Advances.rounds fun n => advances_afterCommas h n c₁).bind fun _ _ => .pure _
  · cases f with
    | soft e => exact .pure []
    | hard e => exact .of_error rfl hf

theorem advances_chainFrom (operator : Token → Option (α → α → α)) (h : ∀ c, Advances 0 p c)
    (n : Nat) (left : α) (c : Cursor) : Advances 0 (chainFrom operator p n left) c := by
  induction n generalizing left c with
  | zero => exact .pure left
  | succ n ih =>
    refine (advances_accept operator).bind fun combine? c₁ => ?_
    cases combine? with
    | none => exact .pure left
    | some combine => exact (h c₁).harden.bind fun right c₂ => ih (combine left right) c₂

theorem advances_chain (operator : Token → Option (α → α → α)) (h : ∀ c, Advances 0 p c)
    (c : Cursor) : Advances 0 (chain operator p) c :=
  (h c).bind fun left c₁ => .rounds fun n => advances_chainFrom operator h n left c₁

end

/-! ### Expressions -/

section

variable {expr : Parser Expr} (h : ∀ c, Advances 0 expr c)
include h

theorem advances_primary (c : Cursor) : Advances 0 (primary expr) c := by
  refine advances_next.weaken.bind fun t c₁ => ?_
  cases t with
  | int value => exact .pure _
  | str content => exact .pure _
  | chr byte => exact .pure _
  | openParen =>
    refine (h c₁).harden.bind fun e _ => ?_
    exact (advances_expect _).weaken.bind fun _ _ => .pure e
  | id name =>
    refine .peek_bind ?_
    split
    · refine (advances_expect _).weaken.bind fun _ c₂ => ?_
      refine (advances_commaSeparated h c₂).bind fun _ _ => ?_
      exact (advances_expect _).weaken.bind fun _ _ => .pure _
    · refine (advances_expect _).weaken.bind fun _ c₂ => ?_
      refine (h c₂).harden.bind fun _ _ => ?_
      exact (advances_expect _).weaken.bind fun _ _ => .pure _
    · exact .pure _
  | _ => exact (Advances.fail _).soften

theorem advances_unaryWithin (n : Nat) (c : Cursor) : Advances 0 (unaryWithin expr n) c := by
  induction n generalizing c with
  | zero => exact advances_primary h c
  | succ n ih =>
    refine (advances_accept unaryOp?).bind fun op? c₁ => ?_
    cases op? with
    | none => exact advances_primary h c₁
    | some op =>
      cases op with
      | none => exact (h c₁).harden.bind fun _ _ => .pure _
      | some op => exact (ih c₁).harden.bind fun _ _ => .pure _

theorem advances_comparison (c : Cursor) : Advances 0 (comparison expr) c := by
  have hunary : ∀ c, Advances 0 (unary expr) c :=
    fun c => .rounds fun n => advances_unaryWithin h n c
  exact advances_chain _ (advances_chain _ (advances_chain _ (advances_chain _ hunary))) c

end

theorem advances_exprWithin (n : Nat) (c : Cursor) : Advances 0 (exprWithin n) c := by
  induction n generalizing c with
  | zero => exact .fail _
  | succ n ih => exact advances_comparison ih c

theorem advances_expr (c : Cursor) : Advances 0 expr c :=
  .rounds fun n => advances_exprWithin n c

/-! ### Statements -/

theorem advances_datatype (c : Cursor) : Advances 1 datatype c := by
  refine advances_next.bind fun t c₁ => ?_
  cases kind? t with
  | none => exact .fail _
  | some kind =>
    refine (advances_acceptToken .openSquare).bind fun array c₂ => ?_
    cases array with
    | false => exact .pure _
    | true => exact (advances_expect _).weaken.bind fun _ _ => .pure _

theorem advances_declaration (d : Datatype) (c : Cursor) : Advances 0 (declaration d) c := by
  refine advances_identifier.weaken.bind fun name c₁ => ?_
  refine (advances_acceptToken .assign).bind fun init c₂ => ?_
  cases init with
  | false => exact .pure _
  | true => exact (advances_expr c₂).bind fun _ _ => .pure _

theorem advances_assignTarget (c : Cursor) : Advances 0 assignTarget c :=
  advances_identifier.weaken.bind fun name _ => (advances_expect _).weaken.bind fun _ _ =>
    .pure name

theorem advances_indexedTarget (c : Cursor) : Advances 0 indexedTarget c := by
  refine advances_identifier.weaken.bind fun name _ =>
    (advances_expect _).weaken.bind fun _ c₁ => ?_
  refine (advances_expr c₁).bind fun index _ => (advances_expect _).weaken.bind fun _ _ => ?_
  exact (advances_expect _).weaken.bind fun _ _ => .pure (name, index)

theorem advances_stepStatement (c : Cursor) : Advances 0 stepStatement c := by
  refine advances_identifier.weaken.bind fun name _ => advances_next.weaken.bind fun t _ => ?_
  cases t with
  | increment => exact .pure _
  | decrement => exact .pure _
  | _ => exact .fail _

theorem advances_simple (c : Cursor) : Advances 0 simple c := by
  -- The errors of the alternatives are dropped; that of the last one, an expression, is kept.
  refine (advances_datatype c).soften.weaken.attempt_bind (fun d c₁ => advances_declaration d c₁)
    fun _ _ => ?_
  refine (advances_assignTarget c).attempt_bind (fun _ c₁ => ?_) fun _ _ => ?_
  · exact (advances_expr c₁).harden.bind fun _ _ => .pure _
  refine (advances_indexedTarget c).attempt_bind (fun _ c₁ => ?_) fun _ _ => ?_
  · exact (advances_expr c₁).harden.bind fun _ _ => .pure _
  refine (advances_stepStatement c).attempt_bind (fun step _ => .pure step) fun _ _ => ?_
  exact (advances_expr c).harden.bind fun _ _ => .pure _

theorem advances_returnStatement (c : Cursor) : Advances 0 returnStatement c := by
  refine (advances_expect _).weaken.bind fun _ c₁ => .peek_bind ?_
  have hend : ∀ value c₂, Advances 0 (do expect .semicolon; return Stmt.return_ value) c₂ :=
    fun value c₂ =>
    (advances_expect _).weaken.bind fun _ _ => .pure _
  split
  · exact hend none c₁
  · exact (advances_expr c₁).harden.map.bind hend

section

variable {block : Parser (List Stmt)} (h : ∀ c, Advances 0 block c)
include h

theorem advances_conditionalWithin (n : Nat) (c : Cursor) :
    Advances 0 (conditionalWithin block n) c := by
  induction n generalizing c with
  | zero => exact .fail _
  | succ n ih =>
    refine (advances_expect _).weaken.bind fun _ c₁ => (advances_expr c₁).harden.bind fun _ c₂ => ?_
    refine (h c₂).bind fun _ _ => (advances_acceptToken _).bind fun more c₃ => ?_
    cases more with
    | false => exact .pure _
    | true =>
      refine .peek_bind ?_
      split
      · exact (ih c₃).bind fun _ _ => .pure _
      · exact (h c₃).bind fun _ _ => .pure _

theorem advances_forStatement (c : Cursor) : Advances 0 (forStatement block) c := by
  refine (advances_expect _).weaken.bind fun _ _ => (advances_expect _).weaken.bind fun _ c₁ => ?_
  refine (advances_simple c₁).bind fun _ _ => (advances_expect _).weaken.bind fun _ c₂ => ?_
  refine (advances_expr c₂).harden.bind fun _ _ => (advances_expect _).weaken.bind fun _ c₃ => ?_
  refine (advances_simple c₃).bind fun _ _ => (advances_expect _).weaken.bind fun _ c₄ => ?_
  exact (h c₄).bind fun _ _ => .pure _

theorem advances_statement (c : Cursor) : Advances 0 (statement block) c := by
  refine .peek_bind ?_
  split
  · exact .fail _
  · exact (advances_returnStatement c).bind fun _ _ => .pure _
  · exact (Advances.rounds fun n => advances_conditionalWithin h n c).bind fun _ _ => .pure _
  · refine Advances.bind ?_ fun _ _ => .pure _
    refine (advances_expect _).weaken.bind fun _ c₁ => (advances_expr c₁).harden.bind fun _ c₂ => ?_
    exact (h c₂).bind fun _ _ => .pure _
  · refine Advances.bind ?_ fun _ _ => .pure _
    refine (advances_expect _).weaken.bind fun _ c₁ => (h c₁).bind fun _ _ => ?_
    refine (advances_expect _).weaken.bind fun _ c₂ => (advances_expr c₂).harden.bind fun _ _ => ?_
    exact (advances_expect _).weaken.bind fun _ _ => .pure _
  · refine Advances.bind ?_ fun _ _ => .pure _
    exact (advances_expect _).weaken.bind fun _ c₁ => (h c₁).bind fun _ _ => .pure _
  · exact advances_forStatement h c
  · exact advances_next.weaken.map.bind fun _ _ => (Advances.fail _).soften
  · refine (advances_simple c).bind fun _ _ => ?_
    exact (advances_expect _).weaken.bind fun _ _ => .pure _

theorem advances_statementsWithin (n : Nat) (c : Cursor) :
    Advances 0 (statementsWithin block n) c := by
  induction n generalizing c with
  | zero => exact .fail _
  | succ n ih =>
    refine (advances_statement h c).attempt_bind (fun _ c₁ => (ih c₁).bind fun _ _ => .pure _)
      fun f hf => ?_
    cases f with
    | soft e =>
      -- A missing brace is blamed on the token at which no statement starts.
      have hkept : (Failure.hard e).Blames 0 c := hf
      exact ((advances_expect .closeCurly).weaken.mapError fun _ _ => hkept).bind fun _ _ =>
        .pure []
    | hard e => exact .of_error rfl hf

end

theorem advances_blockWithin (n : Nat) (c : Cursor) : Advances 0 (blockWithin n) c := by
  induction n generalizing c with
  | zero => exact .fail _
  | succ n ih =>
    refine (advances_expect _).weaken.bind fun _ c₁ => ?_
    exact .rounds fun n => advances_statementsWithin ih n c₁

theorem advances_block (c : Cursor) : Advances 0 block c :=
  .rounds fun n => advances_blockWithin n c

/-! ### Definitions -/

theorem advances_literal (c : Cursor) : Advances 0 literal c := by
  refine advances_next.weaken.bind fun t _ => ?_
  cases t with
  | int value => exact .pure _
  | str content => exact .pure _
  | chr byte => exact .pure _
  | minus =>
    refine advances_next.weaken.bind fun t _ => ?_
    cases t with
    | int value => exact .pure _
    | _ => exact .fail _
  | _ => exact .fail _

theorem advances_globalDef (c : Cursor) : Advances 1 globalDef c := by
  refine (advances_datatype c).soften.attempt_bind (fun d _ => ?_) fun _ _ => ?_
  · refine advances_identifier.weaken.bind fun name _ =>
      (advances_acceptToken _).bind fun init c₁ => ?_
    have hend : ∀ value c₂,
        Advances 0 (do expect .semicolon; return GlobalDef.mk ⟨name, d⟩ value) c₂ :=
      fun _ _ => (advances_expect _).weaken.bind fun _ _ => .pure _
    cases init with
    | false => exact hend none c₁
    | true => exact (advances_literal c₁).map.bind hend
  · exact advances_next.map.bind fun _ _ => .fail _

theorem advances_functionAttribute (c : Cursor) : Advances 0 functionAttribute c := by
  refine advances_identifier.soften.weaken.bind fun name _ => ?_
  cases Attributes.ofName? name with
  | none => exact .fail _
  | some a => exact .pure a

theorem advances_parameter (c : Cursor) : Advances 0 parameter c :=
  (advances_datatype c).soften.weaken.bind fun _ _ =>
    advances_identifier.weaken.bind fun _ _ => .pure _

theorem advances_attributeList (c : Cursor) : Advances 0 attributeList c := by
  refine (advances_acceptToken _).bind fun listed c₁ => ?_
  cases listed with
  | false => exact .pure _
  | true =>
    refine (advances_commaSeparated advances_functionAttribute c₁).bind fun _ _ => ?_
    exact (advances_expect _).weaken.bind fun _ _ => .pure _

theorem advances_assemblyText (c : Cursor) : Advances 0 assemblyText c := by
  refine (advances_expect _).weaken.bind fun _ _ => advances_next.weaken.bind fun t _ => ?_
  cases t with
  | str text => exact (advances_expect _).weaken.bind fun _ _ => .pure text
  | _ => exact .fail _

theorem advances_functionDef (c : Cursor) : Advances 1 functionDef c := by
  refine (advances_expect _).bind fun _ c₁ =>
    (advances_attributeList c₁).bind fun attributes _ => ?_
  refine advances_identifier.weaken.bind fun name _ =>
    (advances_expect _).weaken.bind fun _ c₂ => ?_
  refine (advances_commaSeparated advances_parameter c₂).bind fun parameters _ => ?_
  refine (advances_expect _).weaken.bind fun _ _ => (advances_expect _).weaken.bind fun _ c₃ => ?_
  refine (advances_datatype c₃).weaken.bind fun returns c₄ => ?_
  split
  · exact (advances_assemblyText c₄).map.bind fun _ _ => .pure _
  · exact (advances_block c₄).map.bind fun _ _ => .pure _

/-- A list of definitions takes a token, if there is one. -/
theorem advances_itemsWithin (n : Nat) (c : Cursor) : Advances 1 (itemsWithin (n + 1)) c := by
  have hrest : ∀ c', Advances 0 (itemsWithin n) c' := by
    intro c'
    cases n with
    | zero => exact .pure []
    | succ n => exact (advances_itemsWithin n c').weaken
  refine .peek_bind ?_
  split
  · next hhead =>
    refine .of_ok (a := []) 1 (Nat.le_refl 1) ?_
    rw [Cursor.skip_of_end hhead]
    rfl
  · exact (advances_functionDef c).bind fun _ c₁ => (hrest c₁).bind fun _ _ => .pure _
  · exact (advances_globalDef c).bind fun _ c₁ => (hrest c₁).bind fun _ _ => .pure _

end Parser

/-! ### Programs -/

/-- A global array whose bracket is not closed. -/
def unclosedGlobal : List (Located Token) :=
  [⟨0, .keyword .int⟩, ⟨3, .openSquare⟩, ⟨5, .id "x"⟩, ⟨6, .semicolon⟩]

/-- Every error stands at a token of the list. -/
theorem parse_blames_token {tokens : List (Located Token)} {e : Located ParseError}
    (h : parse tokens = .error e) : ∃ t ∈ tokens, e.offset = t.offset := by
  have hne : tokens ≠ [] := by
    rintro rfl
    cases h
  unfold parse at h
  split at h
  · cases h
  · next f hf =>
    cases h
    obtain ⟨n, hn, hoffset⟩ := (Parser.advances_itemsWithin tokens.length ⟨0, tokens⟩).error f hf
    obtain ⟨t, ht, heq⟩ := Parser.Cursor.exists_offset_skip (c := ⟨0, tokens⟩) hn hne
    exact ⟨t, ht, hoffset.trans heq⟩

theorem parse_blames_token_unclosedGlobal : parse unclosedGlobal = .error ⟨0, .expectedGlobal⟩ ∧
    ∃ t ∈ unclosedGlobal, 0 = t.offset :=
  ⟨rfl, parse_blames_token (e := ⟨0, .expectedGlobal⟩) rfl⟩

/-- No program starts with the first tokens of a list. -/
def Refuted (n : Nat) (tokens : List (Located Token)) : Prop :=
  ∀ tokens' : List (Located Token),
    (tokens'.take n).map Located.value = (tokens.take n).map Located.value →
    ∃ e, parse tokens' = .error e

/-- The kind is blamed for the bracket that is not closed, although a program can start with this
kind. -/
theorem parse_blames_kind : (unclosedGlobal.map Located.offset).Pairwise (· < ·) ∧
    parse unclosedGlobal = .error ⟨0, .expectedGlobal⟩ ∧ ¬ Refuted 1 unclosedGlobal := by
  refine ⟨by decide, rfl, fun hrefuted => ?_⟩
  obtain ⟨e, he⟩ := hrefuted [⟨0, .keyword .int⟩, ⟨4, .id "y"⟩, ⟨5, .semicolon⟩] rfl
  cases he

end Firestorm
