import Firestorm.Proofs.Fallible
import Firestorm.Program.Parser.Basic

/-!
# What parsers take

Where a parser succeeds depends on the tokens and not on their places. This file says it for the
parsers of single tokens and for the ways to build parsers: what they do at a cursor with a given
next token, what stood in front of a parser that has succeeded, and on what tokens a parser does
succeed.

## Main definitions

* `Parser.Cursor.values`, `Parser.Cursor.skip`, `Parser.Yields`, `Parser.Reaches`.

## Main results

* `Parser.next_of_head`, `Parser.expect_of_head`, `Parser.accept_of_head_eq_some`: parsers of single
  tokens.
* `Parser.Yields.bind`, `Parser.Reaches.bind`: one parser after another.
* `Parser.Yields.acceptToken_bind`, `Parser.Yields.attempt_bind`: parsers that choose how to go on.
-/

namespace Firestorm.Parser

open Fallible

variable {α β : Type} {c c' : Cursor} {t token : Token} {ts : List Token}
  {f : Token → Option α} {a : α} {p : Parser α} {g : α → Parser β} {failure : Failure}
  {name : String}

namespace Cursor

/-- The tokens that are left, without their places. -/
def values (c : Cursor) : List Token :=
  c.tokens.map Located.value

/-- The cursor behind a number of tokens. -/
def skip : Nat → Cursor → Cursor
  | 0, c => c
  | _ + 1, ⟨offset, []⟩ => ⟨offset, []⟩
  | n + 1, ⟨_, t :: ts⟩ => skip n ⟨t.offset, ts⟩

@[simp] theorem length_values (c : Cursor) : c.values.length = c.tokens.length :=
  List.length_map _

/-- A cursor that has taken a token has one token less. -/
theorem length_of_values_eq_cons (h : c.values = t :: c'.values) :
    c.tokens.length = c'.tokens.length + 1 := by
  rw [← c.length_values, h, List.length_cons, c'.length_values]

theorem tokens_skip (n : Nat) (c : Cursor) : (c.skip n).tokens = c.tokens.drop n := by
  induction n generalizing c with
  | zero => rfl
  | succ n ih =>
    obtain ⟨offset, tokens⟩ := c
    cases tokens with
    | nil => rfl
    | cons t ts => exact ih ⟨t.offset, ts⟩

theorem values_skip (n : Nat) (c : Cursor) : (c.skip n).values = c.values.drop n := by
  rw [values, tokens_skip, List.map_drop, values]

theorem values_of_head (h : c.values.head? = some t) : c.values = t :: (c.skip 1).values := by
  obtain ⟨ts, hts⟩ := List.head?_eq_some_iff.1 h
  rw [values_skip, hts]
  rfl

end Cursor

/-! ### Parsers of single tokens -/

theorem tokens_eq_nil_of_head? (h : c.values.head? = none) : c.tokens = [] :=
  List.map_eq_nil_iff.1 (List.head?_eq_none_iff.1 h)

theorem exists_token_of_head? (h : c.values.head? = some t) :
    ∃ first rest, c.tokens = first :: rest ∧ first.value = t ∧ c.skip 1 = ⟨first.offset, rest⟩ := by
  obtain ⟨offset, tokens⟩ := c
  cases tokens with
  | nil => cases h
  | cons first rest => exact ⟨first, rest, rfl, Option.some.inj h, rfl⟩

theorem next_of_end (h : c.values.head? = none) :
    next c = .error (.hard ⟨c.offset, .unexpectedEnd⟩) := by
  simp only [next, tokens_eq_nil_of_head? h]
  rfl

theorem next_of_head (h : c.values.head? = some t) : next c = .ok (t, c.skip 1) := by
  obtain ⟨first, rest, htokens, rfl, hskip⟩ := exists_token_of_head? h
  simp only [next, htokens, hskip]

theorem expect_of_end (h : c.values.head? = none) :
    expect token c = .error (.hard ⟨c.offset, .missingToken token⟩) := by
  simp only [expect, tokens_eq_nil_of_head? h]
  rfl

theorem expect_of_head (h : c.values.head? = some token) : expect token c = .ok ((), c.skip 1) := by
  obtain ⟨first, rest, htokens, rfl, hskip⟩ := exists_token_of_head? h
  simp only [expect, htokens, hskip, if_true]

theorem expect_of_head_ne (h : c.values.head? = some t) (ht : t ≠ token) :
    expect token c = .error (.hard ⟨(c.skip 1).offset, .unexpectedToken token t⟩) := by
  obtain ⟨first, rest, htokens, rfl, hskip⟩ := exists_token_of_head? h
  simp only [expect, htokens, hskip, if_neg ht]
  rfl

theorem accept_of_head (h : ∀ t ∈ c.values.head?, f t = none) : accept f c = .ok (none, c) := by
  obtain ⟨offset, tokens⟩ := c
  cases tokens with
  | nil => rfl
  | cons first tokens => simp only [accept, h first.value rfl]

theorem accept_of_head_eq_some (h : c.values.head? = some t) (hf : f t = some a) :
    accept f c = .ok (some a, c.skip 1) := by
  obtain ⟨first, rest, htokens, rfl, hskip⟩ := exists_token_of_head? h
  simp only [accept, htokens, hskip, hf]

theorem peek?_eq (c : Cursor) : peek? c = .ok (c.values.head?, c) := by
  rw [Cursor.values, List.head?_map]
  rfl

theorem bind_of_ok (h : p c = .ok (a, c')) : (p >>= g) c = g a c' := by
  change (p c >>= fun r => g r.1 r.2) = _
  rw [h]
  rfl

theorem bind_of_error (h : p c = .error failure) : (p >>= g) c = .error failure :=
  bind_eq_error.2 (.inl h)

theorem discard_bind (p : Parser α) (g : Unit → Parser β) :
    (discard p >>= g) = p >>= fun _ => g () :=
  bind_map_left (Function.const α ()) p g

theorem acceptToken_of_head (h : c.values.head? ≠ some t) : acceptToken t c = .ok (false, c) := by
  refine bind_of_ok (accept_of_head fun t' ht' => if_neg ?_)
  rintro rfl
  exact h ht'

theorem acceptToken_of_head_eq (h : c.values.head? = some t) :
    acceptToken t c = .ok (true, c.skip 1) :=
  bind_of_ok (accept_of_head_eq_some (a := ()) h (if_pos rfl))

theorem identifier_of_head (h : c.values.head? = some (.id name)) :
    identifier c = .ok (name, c.skip 1) :=
  bind_of_ok (next_of_head h)

theorem attempt_of_ok (h : p c = .ok (a, c')) : attempt p c = .ok (.ok a, c') := by
  simp only [attempt, h]

theorem attempt_of_error (h : p c = .error failure) : attempt p c = .ok (.error failure, c) := by
  simp only [attempt, h]

theorem harden_eq_ok : harden p c = .ok (a, c') ↔ p c = .ok (a, c') :=
  mapError_eq_ok

theorem soften_eq_ok : soften p c = .ok (a, c') ↔ p c = .ok (a, c') :=
  mapError_eq_ok

theorem soften_of_error (h : p c = .error failure) : soften p c = .error (.soft failure.error) := by
  rw [soften, h]
  rfl

/-! ### What was taken -/

/-- If a parser succeeds, its value and the cursor behind it satisfy a condition. -/
def Yields (p : Parser α) (c : Cursor) (Q : α → Cursor → Prop) : Prop :=
  ∀ a c', p c = .ok (a, c') → Q a c'

namespace Yields

variable {Q Q' : α → Cursor → Prop} {R : β → Cursor → Prop}

theorem of_ok (h : p c = .ok (a, c')) (hQ : Q a c') : Yields p c Q := by
  intro a₁ c₁ h₁
  cases h.symm.trans h₁
  exact hQ

theorem of_error (h : p c = .error failure) : Yields p c Q := by
  intro a₁ c₁ h₁
  cases h.symm.trans h₁

theorem mono (h : Yields p c Q) (hQ : ∀ a c', Q a c' → Q' a c') : Yields p c Q' :=
  fun a c' hp => hQ a c' (h a c' hp)

protected theorem pure (h : Q a c) : Yields (pure a) c Q :=
  of_ok rfl h

protected theorem bind (h : Yields p c Q) (hg : ∀ a c', Q a c' → Yields (g a) c' R) :
    Yields (p >>= g) c R := by
  intro b c₂ hb
  obtain ⟨a, c₁, ha, hb⟩ := bind_eq_ok.1 hb
  exact hg a c₁ (h a c₁ ha) b c₂ hb

theorem bind_of_ok (h : p c = .ok (a, c')) (hg : Yields (g a) c' R) : Yields (p >>= g) c R := by
  intro b c₂ hb
  rw [Parser.bind_of_ok h] at hb
  exact hg b c₂ hb

protected theorem map {f : α → β} (h : Yields p c fun a => R (f a)) : Yields (f <$> p) c R := by
  intro b c' hb
  obtain ⟨a, ha, rfl⟩ := map_eq_ok.1 hb
  exact h a c' ha

theorem harden (h : Yields p c Q) : Yields (Parser.harden p) c Q :=
  fun a c' hp => h a c' (harden_eq_ok.1 hp)

theorem soften (h : Yields p c Q) : Yields (Parser.soften p) c Q :=
  fun a c' hp => h a c' (soften_eq_ok.1 hp)

theorem peek_bind {g : Option Token → Parser β} (h : Yields (g c.values.head?) c R) :
    Yields (peek? >>= g) c R :=
  bind_of_ok (peek?_eq c) h

theorem accept_bind {g : Option α → Parser β}
    (hsome : ∀ t a c', f t = some a → c.values = t :: c'.values → Yields (g (some a)) c' R)
    (hnone : (∀ t ∈ c.values.head?, f t = none) → Yields (g none) c R) :
    Yields (accept f >>= g) c R := by
  cases hf : c.values.head?.bind f with
  | none =>
    have hhead := Option.bind_eq_none_iff.1 hf
    exact bind_of_ok (accept_of_head hhead) (hnone hhead)
  | some a =>
    obtain ⟨t, hhead, ht⟩ := Option.bind_eq_some_iff.1 hf
    exact bind_of_ok (accept_of_head_eq_some hhead ht)
      (hsome t a _ ht (Cursor.values_of_head hhead))

theorem acceptToken_bind {g : Bool → Parser β}
    (htrue : ∀ c', c.values = t :: c'.values → Yields (g true) c' R)
    (hfalse : c.values.head? ≠ some t → Yields (g false) c R) :
    Yields (acceptToken t >>= g) c R := by
  by_cases hhead : c.values.head? = some t
  · exact bind_of_ok (acceptToken_of_head_eq hhead) (htrue _ (Cursor.values_of_head hhead))
  · exact bind_of_ok (acceptToken_of_head hhead) (hfalse hhead)

theorem attempt_bind {g : Except Failure α → Parser β}
    (hok : Yields p c fun a c' => Yields (g (.ok a)) c' R)
    (herror : ∀ failure, Yields (g (.error failure)) c R) : Yields (attempt p >>= g) c R := by
  cases hp : p c with
  | ok r => exact bind_of_ok (attempt_of_ok hp) (hok _ _ hp)
  | error failure => exact bind_of_ok (attempt_of_error hp) (herror failure)

end Yields

theorem yields_next : Yields next c fun t c' => c.values = t :: c'.values := by
  cases hhead : c.values.head? with
  | none => exact .of_error (next_of_end hhead)
  | some t => exact .of_ok (next_of_head hhead) (Cursor.values_of_head hhead)

theorem yields_expect : Yields (expect token) c fun _ c' => c.values = token :: c'.values := by
  cases hhead : c.values.head? with
  | none => exact .of_error (expect_of_end hhead)
  | some t =>
    by_cases ht : t = token
    · subst ht
      exact .of_ok (expect_of_head hhead) (Cursor.values_of_head hhead)
    · exact .of_error (expect_of_head_ne hhead ht)

theorem yields_identifier :
    Yields identifier c fun name c' => c.values = .id name :: c'.values := by
  refine yields_next.bind fun t c' hvalues => ?_
  cases t with
  | id name => exact .pure hvalues
  | _ => exact .of_error rfl

/-! ### What can be taken -/

/-- A parser succeeds, and its value and the tokens left behind satisfy a condition. -/
def Reaches (p : Parser α) (c : Cursor) (Q : α → List Token → Prop) : Prop :=
  ∃ a c', p c = .ok (a, c') ∧ Q a c'.values

section

variable {Q Q' : α → List Token → Prop} {R : β → List Token → Prop}

theorem Reaches.mono (h : Reaches p c Q) (hQ : ∀ a ts, Q a ts → Q' a ts) : Reaches p c Q' := by
  obtain ⟨a, c', hp, ha⟩ := h
  exact ⟨a, c', hp, hQ a _ ha⟩

theorem Reaches.pure (h : Q a c.values) : Reaches (Pure.pure a) c Q :=
  ⟨a, c, rfl, h⟩

theorem Reaches.bind (h : Reaches p c Q) (hg : ∀ a c', Q a c'.values → Reaches (g a) c' R) :
    Reaches (p >>= g) c R := by
  obtain ⟨a, c₁, hp, ha⟩ := h
  obtain ⟨b, c₂, hb, hR⟩ := hg a c₁ ha
  exact ⟨b, c₂, bind_eq_ok.2 ⟨a, c₁, hp, hb⟩, hR⟩

theorem Reaches.bind_of_eq_ok (hp : p c = .ok (a, c')) (hg : Reaches (g a) c' R) :
    Reaches (p >>= g) c R := by
  obtain ⟨b, c₁, hb, hR⟩ := hg
  exact ⟨b, c₁, bind_eq_ok.2 ⟨a, c', hp, hb⟩, hR⟩

theorem Reaches.map {f : α → β} (h : Reaches p c fun a ts => R (f a) ts) :
    Reaches (f <$> p) c R := by
  obtain ⟨a, c₁, hp, ha⟩ := h
  exact ⟨f a, c₁, map_eq_ok.2 ⟨a, hp, rfl⟩, ha⟩

theorem Reaches.harden (h : Reaches p c Q) : Reaches (Parser.harden p) c Q := by
  obtain ⟨a, c', hp, ha⟩ := h
  exact ⟨a, c', harden_eq_ok.2 hp, ha⟩

theorem Reaches.soften (h : Reaches p c Q) : Reaches (Parser.soften p) c Q := by
  obtain ⟨a, c', hp, ha⟩ := h
  exact ⟨a, c', soften_eq_ok.2 hp, ha⟩

theorem Reaches.rounds {loop : Nat → Parser α} (h : Reaches (loop (c.tokens.length + 1)) c Q) :
    Reaches (Parser.rounds loop) c Q :=
  h

/-- A parser succeeds in one way only. -/
theorem Reaches.of_eq_ok (h : Reaches p c Q) (hp : p c = .ok (a, c')) : Q a c'.values := by
  obtain ⟨a', c₁, hp', hQ⟩ := h
  rw [hp] at hp'
  cases hp'
  exact hQ

/-- An alternative that succeeds is taken. -/
theorem Reaches.attempt_bind {g : Except Failure α → Parser β} (h : Reaches p c Q)
    (hg : ∀ a c', Q a c'.values → Reaches (g (.ok a)) c' R) : Reaches (attempt p >>= g) c R := by
  obtain ⟨a, c', hp, ha⟩ := h
  exact .bind_of_eq_ok (attempt_of_ok hp) (hg a c' ha)

/-- An alternative that fails takes nothing. -/
theorem Reaches.attempt_bind_of_ne_ok {g : Except Failure α → Parser β}
    (h : ∀ a c', p c ≠ .ok (a, c')) (hg : ∀ failure, Reaches (g (.error failure)) c R) :
    Reaches (attempt p >>= g) c R := by
  cases hp : p c with
  | ok r => exact absurd hp (h r.1 r.2)
  | error failure => exact .bind_of_eq_ok (attempt_of_error hp) (hg failure)

theorem head?_and_values_skip (h : c.values = t :: ts) :
    c.values.head? = some t ∧ (c.skip 1).values = ts := by
  rw [Cursor.values_skip, h]
  exact ⟨rfl, rfl⟩

theorem reaches_next (h : c.values = t :: ts) : Reaches next c fun a rest => a = t ∧ rest = ts := by
  obtain ⟨hhead, hts⟩ := head?_and_values_skip h
  exact ⟨t, c.skip 1, next_of_head hhead, rfl, hts⟩

theorem reaches_expect (h : c.values = t :: ts) : Reaches (expect t) c fun _ rest => rest = ts := by
  obtain ⟨hhead, hts⟩ := head?_and_values_skip h
  exact ⟨(), c.skip 1, expect_of_head hhead, hts⟩

theorem reaches_accept (h : c.values = t :: ts) (hf : f t = some a) :
    Reaches (accept f) c fun r rest => r = some a ∧ rest = ts := by
  obtain ⟨hhead, hts⟩ := head?_and_values_skip h
  exact ⟨some a, c.skip 1, accept_of_head_eq_some hhead hf, rfl, hts⟩

theorem reaches_acceptToken (h : c.values = t :: ts) :
    Reaches (acceptToken t) c fun b rest => b = true ∧ rest = ts := by
  obtain ⟨hhead, hts⟩ := head?_and_values_skip h
  exact ⟨true, c.skip 1, acceptToken_of_head_eq hhead, rfl, hts⟩

theorem reaches_identifier (h : c.values = .id name :: ts) :
    Reaches identifier c fun a rest => a = name ∧ rest = ts := by
  obtain ⟨hhead, hts⟩ := head?_and_values_skip h
  exact ⟨name, c.skip 1, identifier_of_head hhead, rfl, hts⟩

end

end Firestorm.Parser
