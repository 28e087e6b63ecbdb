import Firestorm.Program.Parser.Stmt
import Firestorm.Proofs.Program.Parsing.Expressions

/-!
# Reading simple statements

A declaration, an assignment, a step or an expression is read as the grammar says. The parser tries
the forms one after another. An expression is no assignment and no step, because an expression that
cannot go on ends at one place only, and there the tokens of the other forms go on.

## Main definitions

* `Parser.startsSimple`, `Parser.endsSimple`.

## Main results

* `Parser.reaches_simple`.
* `Parser.datatype_sound`, `Parser.reaches_datatype`: what is read as a datatype.
* `Parser.simple_sound`: what is read as a simple statement is one.
-/

namespace Firestorm.Parser

open Fallible Grammar

variable {t : Token} {c c' : Cursor} {d : Datatype} {rest : List Token} {s : Stmt} {e : Expr}

/-! ### Datatypes -/

theorem kind?_eq_some {kind : Kind} (h : kind? t = some kind) : t = kind.token := by
  unfold kind? at h
  split at h <;> cases h <;> rfl

theorem kind?_token (kind : Kind) : kind? kind.token = some kind := by
  cases kind <;> rfl

theorem datatype_sound : Yields datatype c fun d c' => c.values = d.tokens ++ c'.values := by
  refine yields_next.bind fun t c₁ hvalues => ?_
  rw [hvalues]
  cases hkind : kind? t with
  | none => exact .of_error rfl
  | some kind =>
    rw [kind?_eq_some hkind]
    refine .acceptToken_bind (fun c₂ hopen => ?_) fun _ => .pure rfl
    refine yields_expect.bind fun _ c₃ hclose => .pure ?_
    rw [hopen, hclose]
    rfl

/-- A datatype is read, unless a bracket stands behind a scalar. -/
theorem reaches_datatype (h : c.values = d.tokens ++ rest) (hrest : rest.head? ≠ some .openSquare) :
    Reaches datatype c fun d' ts => d' = d ∧ ts = rest := by
  obtain ⟨kind, array⟩ := d
  have hvalues : ∃ ts, c.values = kind.token :: ts ∧
      ts = if array then .openSquare :: .closeSquare :: rest else rest := by
    cases array <;> exact ⟨_, h, rfl⟩
  obtain ⟨ts, hvalues, hts⟩ := hvalues
  refine (reaches_next hvalues).bind fun t c₁ ht => ?_
  obtain ⟨rfl, hc₁⟩ := ht
  simp only [kind?_token]
  cases array with
  | false =>
    rw [hts] at hc₁
    have hne : c₁.values.head? ≠ some .openSquare := by
      rw [hc₁]
      exact hrest
    exact .bind_of_eq_ok (acceptToken_of_head hne) (.pure ⟨rfl, hc₁⟩)
  | true =>
    rw [hts] at hc₁
    refine (reaches_acceptToken hc₁).bind fun b c₂ hb => ?_
    obtain ⟨rfl, hc₂⟩ := hb
    exact (reaches_expect hc₂).bind fun _ c₃ hc₃ => .pure ⟨rfl, hc₃⟩

theorem datatype_ne_ok {ts : List Token} (hvalues : c.values = t :: ts) (h : kind? t = none)
    (d : Datatype) (c' : Cursor) : soften datatype c ≠ .ok (d, c') := by
  intro hok
  rw [datatype_sound d c' (soften_eq_ok.1 hok), Datatype.tokens] at hvalues
  have ht : d.kind.token = t := by
    split at hvalues <;> exact (List.cons.inj hvalues).1
  rw [← ht, kind?_token] at h
  cases h

/-! ### Statements without a semicolon -/

theorem assignTarget_sound :
    Yields assignTarget c fun name c' => c.values = .id name :: .assign :: c'.values := by
  refine yields_identifier.bind fun name c₁ hname => yields_expect.bind fun _ c₂ hassign => .pure ?_
  rw [hname, hassign]

theorem indexedTarget_sound :
    Yields indexedTarget c fun r c' => ∃ ts, c.values = .id r.1 :: .openSquare :: ts ∧
    Spells Longest (.expr .comparison r.2) ts (.closeSquare :: .assign :: c'.values) := by
  refine yields_identifier.bind fun name c₁ hname => yields_expect.bind fun _ c₂ hopen => ?_
  refine expr_sound.bind fun i c₃ hi => yields_expect.bind fun _ c₄ hclose => ?_
  refine yields_expect.bind fun _ c₅ hassign => .pure ⟨c₂.values, by rw [hname, hopen], ?_⟩
  rwa [hclose, hassign] at hi

theorem stepStatement_sound : Yields stepStatement c fun s c' =>
    ∃ name, (s = .increment name ∧ c.values = .id name :: .increment :: c'.values) ∨
      s = .decrement name ∧ c.values = .id name :: .decrement :: c'.values := by
  refine yields_identifier.bind fun name c₁ hname => yields_next.bind fun t c₂ ht => ?_
  rw [hname, ht]
  cases t with
  | increment => exact .pure ⟨name, .inl ⟨rfl, rfl⟩⟩
  | decrement => exact .pure ⟨name, .inr ⟨rfl, rfl⟩⟩
  | _ => exact .of_error rfl

theorem declaration_sound :
    Yields (declaration d) c fun s c' =>
    Spells Longest (.simple s) (d.tokens ++ c.values) c'.values := by
  refine yields_identifier.bind fun name c₁ hname => ?_
  rw [hname, ← List.singleton_append, ← List.append_assoc]
  refine .acceptToken_bind (fun c₂ hassign => ?_) fun _ => .pure (.declare ⟨name, d⟩)
  rw [hassign]
  exact expr_sound.bind fun e c₃ he => .pure (.initialise ⟨name, d⟩ he)

theorem simple_sound :
    Yields simple c fun s c' => Spells Longest (.simple s) c.values c'.values := by
  refine .attempt_bind (datatype_sound.soften.mono fun d c₁ hd => ?_) fun _ => ?_
  · rw [hd]
    exact declaration_sound
  refine .attempt_bind (assignTarget_sound.mono fun name c₁ hname => ?_) fun _ => ?_
  · rw [hname]
    exact expr_sound.harden.bind fun e c₂ he => .pure (.assign name he)
  refine .attempt_bind (indexedTarget_sound.mono fun r c₁ hr => ?_) fun _ => ?_
  · obtain ⟨ts, hvalues, hi⟩ := hr
    rw [hvalues]
    exact expr_sound.harden.bind fun e c₂ he => .pure (.assignIndexed r.1 hi he)
  refine .attempt_bind (stepStatement_sound.mono fun step c₁ hstep => .pure ?_) fun _ => ?_
  · obtain ⟨name, ⟨rfl, hvalues⟩ | ⟨rfl, hvalues⟩⟩ := hstep
    · rw [hvalues]
      exact .increment name
    · rw [hvalues]
      exact .decrement name
  exact expr_sound.harden.bind fun e c₁ he => .pure (.expr he)

/-- The tokens that an expression can start with. -/
def startsExpr : Token → Bool
  | .id _ | .int _ | .str _ | .chr _ | .openParen | .not | .bitNot | .plus | .minus => true
  | _ => false

/-- The tokens that a statement without a keyword of its own can start with. -/
def startsSimple (t : Token) : Bool :=
  startsExpr t || (kind? t).isSome

section

variable {negates : List Token → List Token → Prop} {ts rest : List Token}

theorem startsExpr_of_spells {l : Level} (h : Spells negates (.expr l e) ts rest) :
    ∃ t ts', ts = t :: ts' ∧ startsExpr t = true := by
  generalize hph : Phrase.expr l e = ph at h
  induction h generalizing l e with
  | tighter _ ih => exact ih rfl
  | compare _ _ _ ih _ => exact ih rfl
  | binary _ _ _ ih _ => exact ih rfl
  | unary op => exact ⟨_, _, rfl, by cases op <;> rfl⟩
  | literal value => exact ⟨_, _, rfl, by cases value <;> rfl⟩
  | not | parenthesised | lookup | index | call => exact ⟨_, _, rfl, rfl⟩
  | _ => cases hph

theorem kind?_of_startsExpr (h : startsExpr t = true) : kind? t = none := by
  cases t <;> cases h <;> rfl

theorem startsSimple_of_spells (h : Spells negates (.simple s) ts rest) :
    ∃ t ts', ts = t :: ts' ∧ startsSimple t = true := by
  have hbinding : ∀ (b : Binding) (rest : List Token), ∃ t ts', b.tokens ++ rest = t :: ts' ∧
      startsSimple t = true := by
    intro b rest
    refine ⟨b.datatype.kind.token, ?_⟩
    rw [Binding.tokens, Datatype.tokens, startsSimple, kind?_token]
    split <;> exact ⟨_, rfl, Bool.or_true _⟩
  cases h with
  | declare b => exact hbinding b _
  | initialise b => exact hbinding b _
  | assign | assignIndexed | increment | decrement => exact ⟨_, _, rfl, rfl⟩
  | expr h =>
    obtain ⟨t, ts', rfl, ht⟩ := startsExpr_of_spells h
    exact ⟨t, ts', rfl, by rw [startsSimple, ht, Bool.true_or]⟩

end

/-- An expression that stops ends at one place only. -/
theorem rest_unique {e' : Expr} {rest' : List Token}
    (h : Spells Any (.expr .comparison e) c.values rest) (hrest : Stops rest)
    (h' : Spells Any (.expr .comparison e') c.values rest') (hrest' : Stops rest') :
    rest = rest' := by
  obtain ⟨e'', c', hp, rfl, -⟩ := readsExpr_any h hrest
  exact ((readsExpr_any h' hrest').of_eq_ok hp).1

section

variable {negates : List Token → List Token → Prop} {X : Prop}
variable {t : Token} {c : Cursor} {ts : List Token} {name : String} {s : Stmt}

/-- Statements without a semicolon of their own stand in front of one, or in front of the
parenthesis that closes the header of a loop. -/
def endsSimple : Token → Bool
  | .semicolon | .closeParen => true
  | _ => false

theorem stops_of_endsSimple (h : endsSimple t = true) (ts : List Token) : Stops (t :: ts) := by
  refine stops_cons ?_ ?_ ts
  · cases t <;> cases h <;> rfl
  · cases t <;> cases h <;> rfl

/-- The alternatives in front of an expression are no expressions. -/
theorem targets_ne_ok (h : Spells negates (.expr .comparison e) c.values (t :: ts))
    (ht : endsSimple t = true) :
    (∀ name c', assignTarget c ≠ .ok (name, c')) ∧ (∀ r c', indexedTarget c ≠ .ok (r, c')) ∧
      ∀ s c', stepStatement c ≠ .ok (s, c') := by
  -- each of them starts with an expression that ends in front of another token
  have hne : ∀ {e' t' ts'}, Spells Any (.expr .primary e') c.values (t' :: ts') →
      joinLevel? t' = none → opens t' = false → endsSimple t' = false → False := by
    intro e' t' ts' h' hjoin hopens hends
    have heq := rest_unique h.any (stops_of_endsSimple ht ts) (h'.of_primary .comparison)
      (stops_cons hjoin hopens ts')
    obtain ⟨rfl, -⟩ := List.cons.inj heq
    rw [ht] at hends
    cases hends
  refine ⟨fun name c' hok => ?_, fun r c' hok => ?_, fun s c' hok => ?_⟩
  · rw [assignTarget_sound name c' hok] at hne
    exact hne (.lookup name) rfl rfl rfl
  · obtain ⟨ts', hvalues, hi⟩ := indexedTarget_sound r c' hok
    rw [hvalues] at hne
    exact hne (.index r.1 hi.any) rfl rfl rfl
  · obtain ⟨name, ⟨-, hvalues⟩ | ⟨-, hvalues⟩⟩ := stepStatement_sound s c' hok
    · rw [hvalues] at hne
      exact hne (.lookup name) rfl rfl rfl
    · rw [hvalues] at hne
      exact hne (.lookup name) rfl rfl rfl

/-- A datatype in front of a name is taken where it is tried. -/
theorem reaches_of_binding {α : Type} {b : Binding} {F : Except Failure Datatype → Parser α}
    {Q : α → List Token → Prop} (hvalues : c.values = b.tokens ++ rest)
    (h : ∀ c, c.values = .id b.name :: rest → Reaches (F (.ok b.datatype)) c Q) :
    Reaches (attempt (soften datatype) >>= F) c Q := by
  rw [Binding.tokens, List.append_assoc] at hvalues
  refine (reaches_datatype hvalues (by simp)).soften.attempt_bind fun d c₁ hd => ?_
  obtain ⟨rfl, hc₁⟩ := hd
  exact h c₁ hc₁

theorem reaches_assignTarget (hvalues : c.values = .id name :: .assign :: ts) :
    Reaches assignTarget c fun name' rest => name' = name ∧ rest = ts := by
  refine (reaches_identifier hvalues).bind fun name' c₁ hname => ?_
  exact (reaches_expect hname.2).bind fun _ c₂ hc₂ => .pure ⟨hname.1, hc₂⟩

theorem assignTarget_ne_ok {t' : Token} (hvalues : c.values = t :: t' :: ts) (ht' : t' ≠ .assign)
    (name : String) (c' : Cursor) : assignTarget c ≠ .ok (name, c') := by
  intro hok
  rw [assignTarget_sound name c' hok] at hvalues
  cases hvalues
  exact ht' rfl

theorem indexedTarget_ne_ok {t' : Token} (hvalues : c.values = t :: t' :: ts)
    (ht' : t' ≠ .openSquare) (r : String × Expr) (c' : Cursor) : indexedTarget c ≠ .ok (r, c') := by
  intro hok
  obtain ⟨ts', hvalues', -⟩ := indexedTarget_sound r c' hok
  rw [hvalues'] at hvalues
  cases hvalues
  exact ht' rfl

theorem reaches_stepStatement (hvalues : c.values = .id name :: t :: ts)
    (h : (t = .increment ∧ s = .increment name) ∨ t = .decrement ∧ s = .decrement name) :
    Reaches stepStatement c fun s' rest => s' = s ∧ rest = ts := by
  refine (reaches_identifier hvalues).bind fun name' c₁ hname => ?_
  obtain ⟨rfl, hc₁⟩ := hname
  refine (reaches_next hc₁).bind fun t' c₂ ht => ?_
  obtain ⟨rfl, hc₂⟩ := ht
  rcases h with ⟨rfl, rfl⟩ | ⟨rfl, rfl⟩ <;> exact .pure ⟨rfl, hc₂⟩

/-- A variable in front of a double plus or minus is read as a step. -/
theorem reaches_simple_of_step (hvalues : c.values = .id name :: t :: ts)
    (h : (t = .increment ∧ s = .increment name) ∨ t = .decrement ∧ s = .decrement name) :
    Reaches simple c fun s' rest => s' = s ∧ rest = ts := by
  have hne : t ≠ .assign ∧ t ≠ .openSquare := by
    rcases h with ⟨rfl, -⟩ | ⟨rfl, -⟩ <;> simp
  refine .attempt_bind_of_ne_ok (datatype_ne_ok hvalues rfl) fun _ => ?_
  refine .attempt_bind_of_ne_ok (assignTarget_ne_ok hvalues hne.1) fun _ => ?_
  refine .attempt_bind_of_ne_ok (indexedTarget_ne_ok hvalues hne.2) fun _ => ?_
  exact (reaches_stepStatement hvalues h).attempt_bind fun s' c₁ hs => .pure hs

variable (hexpr : ReadsExpr negates X)
include hexpr

theorem reaches_indexedTarget {i : Expr} (hvalues : c.values = .id name :: .openSquare :: ts)
    (h : Spells negates (.expr .comparison i) ts (.closeSquare :: .assign :: rest)) :
    Reaches indexedTarget c fun target last => last = rest ∧ (X → target.2 = i) ∧
    target.1 = name := by
  refine (reaches_identifier hvalues).bind fun name' c₁ hname => ?_
  obtain ⟨rfl, hc₁⟩ := hname
  refine (reaches_expect hc₁).bind fun _ c₂ hc₂ => ?_
  subst hc₂
  refine (hexpr h (stops_cons rfl rfl _)).bind fun i' c₃ hi => ?_
  refine (reaches_expect hi.1).bind fun _ c₄ hc₄ => ?_
  exact (reaches_expect hc₄).bind fun _ c₅ hc₅ => .pure ⟨hc₅, hi.2, rfl⟩

/-- A statement without a semicolon is read in front of one, or in front of the parenthesis that
closes the header of a loop. -/
theorem reaches_simple (h : Spells negates (.simple s) c.values (t :: ts))
    (ht : endsSimple t = true) : Reaches simple c fun s' rest => rest = t :: ts ∧ (X → s' = s) := by
  have hstops := stops_of_endsSimple ht ts
  generalize hvalues : c.values = first at h
  generalize hlast : t :: ts = last at h
  cases h with
  | declare b =>
    refine reaches_of_binding hvalues fun c₁ hc₁ => ?_
    refine (reaches_identifier hc₁).bind fun name c₂ hname => ?_
    obtain ⟨rfl, hc₂⟩ := hname
    have hne : c₂.values.head? ≠ some .assign := by
      rw [hc₂, ← hlast]
      rintro ⟨⟩
      cases ht
    exact .bind_of_eq_ok (acceptToken_of_head hne) (.pure ⟨hc₂, fun _ => rfl⟩)
  | initialise b h =>
    subst hlast
    refine reaches_of_binding hvalues fun c₁ hc₁ => ?_
    refine (reaches_identifier hc₁).bind fun name c₂ hname => ?_
    obtain ⟨rfl, hc₂⟩ := hname
    refine (reaches_acceptToken hc₂).bind fun b c₃ hb => ?_
    obtain ⟨rfl, rfl⟩ := hb
    refine (hexpr h hstops).bind fun e' c₄ he => .pure ⟨he.1, fun x => ?_⟩
    rw [he.2 x]
  | assign name h =>
    subst hlast
    refine .attempt_bind_of_ne_ok (datatype_ne_ok hvalues rfl) fun _ => ?_
    refine (reaches_assignTarget hvalues).attempt_bind fun name' c₁ hname => ?_
    obtain ⟨rfl, rfl⟩ := hname
    refine (hexpr h hstops).harden.bind fun e' c₂ he => .pure ⟨he.1, fun x => ?_⟩
    rw [he.2 x]
  | assignIndexed name hi h =>
    subst hlast
    refine .attempt_bind_of_ne_ok (datatype_ne_ok hvalues rfl) fun _ => ?_
    refine .attempt_bind_of_ne_ok (assignTarget_ne_ok hvalues (by simp)) fun _ => ?_
    refine (reaches_indexedTarget hexpr hvalues hi).attempt_bind fun r c₁ hr => ?_
    obtain ⟨rfl, hi', rfl⟩ := hr
    refine (hexpr h hstops).harden.bind fun e' c₂ he => .pure ⟨he.1, fun x => ?_⟩
    rw [he.2 x, ← hi' x]
  | increment name =>
    refine (reaches_simple_of_step hvalues (.inl ⟨rfl, rfl⟩)).mono ?_
    rintro s' rest ⟨rfl, rfl⟩
    exact ⟨rfl, fun _ => rfl⟩
  | decrement name =>
    refine (reaches_simple_of_step hvalues (.inr ⟨rfl, rfl⟩)).mono ?_
    rintro s' rest ⟨rfl, rfl⟩
    exact ⟨rfl, fun _ => rfl⟩
  | expr h =>
    subst hlast
    subst hvalues
    obtain ⟨t', ts', hstart, ht'⟩ := startsExpr_of_spells h
    obtain ⟨hassign, hindexed, hstep⟩ := targets_ne_ok h ht
    refine .attempt_bind_of_ne_ok (datatype_ne_ok hstart (kind?_of_startsExpr ht')) fun _ => ?_
    refine .attempt_bind_of_ne_ok hassign fun _ => .attempt_bind_of_ne_ok hindexed fun _ => ?_
    refine .attempt_bind_of_ne_ok hstep fun _ => ?_
    refine (hexpr h hstops).harden.bind fun e' c₁ he => .pure ⟨he.1, fun x => ?_⟩
    rw [he.2 x]

end

end Firestorm.Parser
