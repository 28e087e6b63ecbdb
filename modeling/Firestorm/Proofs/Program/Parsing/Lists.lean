import Firestorm.Proofs.Program.Grammar
import Firestorm.Proofs.Program.Parsing.Steps

/-!
# Parsing lists between commas

The parser for lists reads the lists of the grammar if the parser for their elements reads the
elements. What is asked of that parser is limited to as many tokens as are left, so that it may be
the parser of a nested expression. Where the value of an element is only known on some condition, so
is that of the list.

## Main results

* `Parser.commaSeparated_sound`: what has been read is a list.
* `Parser.reaches_commaSeparated`: a list in parentheses is read.
-/

namespace Firestorm.Parser

open Fallible Grammar

variable {α : Type} {E : α → List Token → List Token → Prop} {element : Parser α} {k : Nat}
variable {as : List α} {c : Cursor}

section

variable (helement : ∀ c, c.tokens.length < k →
  Yields element c fun a c' => E a c.values c'.values ∧ c'.tokens.length < c.tokens.length)
include helement

theorem afterCommas_sound {n : Nat} {a : α} {ts : List Token} (hc : c.tokens.length < k)
    (ha : E a ts c.values) :
    Yields (afterCommas element n) c fun as c' => CommaList E (a :: as) ts c'.values := by
  induction n generalizing a ts c with
  | zero => exact .pure (.last ha)
  | succ n ih =>
    refine .acceptToken_bind (fun c₁ hvalues => ?_) fun _ => .pure (.last ha)
    have hc₁ := Cursor.length_of_values_eq_cons hvalues
    rw [hvalues] at ha
    refine (helement c₁ (by omega)).harden.bind fun a' c₂ ha' => ?_
    exact (ih (by omega) ha'.1).bind fun as c₃ has => .pure (.more ha has)

theorem commaSeparated_sound (hc : c.tokens.length < k) :
    Yields (commaSeparated element) c fun as c' => CommaList E as c.values c'.values := by
  refine .attempt_bind ((helement c hc).mono fun a c₁ ha => ?_) fun failure => ?_
  · have hrest := afterCommas_sound helement (n := c₁.tokens.length + 1) (by omega) ha.1
    exact Yields.bind hrest fun as c₂ has => .pure has
  · cases failure with
    | soft => exact .pure .nil
    | hard => exact .of_error rfl

end

theorem commaSeparated_sound_of_length_lt (hE : ∀ a ts rest, E a ts rest → rest.length < ts.length)
    (helement : ∀ c, Yields element c fun a c' => E a c.values c'.values) :
    Yields (commaSeparated element) c fun as c' => CommaList E as c.values c'.values := by
  refine commaSeparated_sound (fun c _ => (helement c).mono fun a c' ha => ⟨ha, ?_⟩)
    (Nat.lt_succ_self _)
  have hlt := hE _ _ _ ha
  rwa [Cursor.length_values, Cursor.length_values] at hlt

/-- What stands behind an element of a list in parentheses. -/
def Tail (E : α → List Token → List Token → Prop) (last : List Token) (as : List α)
    (ts : List Token) : Prop :=
  (as = [] ∧ ts = .closeParen :: last) ∨
    ∃ ts', ts = .comma :: ts' ∧ as ≠ [] ∧ CommaList E as ts' (.closeParen :: last)

theorem exists_tail {last ts : List Token} {a : α}
    (h : CommaList E (a :: as) ts (.closeParen :: last)) :
    ∃ t r, (t = .comma ∨ t = .closeParen) ∧ E a ts (t :: r) ∧ Tail E last as (t :: r) := by
  cases h with
  | last ha => exact ⟨_, _, .inr rfl, ha, .inl ⟨rfl, rfl⟩⟩
  | more ha h => exact ⟨_, _, .inl rfl, ha, .inr ⟨_, rfl, List.cons_ne_nil _ _, h⟩⟩

variable {X : Prop} {last : List Token}
  (helement : ∀ c a t r, c.tokens.length < k → t = .comma ∨ t = .closeParen →
    E a c.values (t :: r) → Reaches element c fun a' ts => ts = t :: r ∧ (X → a' = a))
  (hE : ∀ a ts rest, E a ts rest → rest.length < ts.length)
include helement hE

theorem reaches_afterCommas {n : Nat} (hc : c.tokens.length < k) (hn : c.tokens.length < n)
    (h : Tail E last as c.values) :
    Reaches (afterCommas element n) c fun as' ts => ts = .closeParen :: last ∧ (X → as' = as) := by
  induction as generalizing c n with
  | nil =>
    obtain ⟨n, rfl⟩ : ∃ m, n = m + 1 := ⟨n - 1, by omega⟩
    rcases h with ⟨-, hvalues⟩ | ⟨_, -, hne, -⟩
    · have hne : c.values.head? ≠ some .comma := by
        rw [hvalues]
        simp
      exact .bind_of_eq_ok (acceptToken_of_head hne) (.pure ⟨hvalues, fun _ => rfl⟩)
    · exact absurd rfl hne
  | cons a as ih =>
    obtain ⟨n, rfl⟩ : ∃ m, n = m + 1 := ⟨n - 1, by omega⟩
    rcases h with ⟨hnil, -⟩ | ⟨ts', hvalues, -, hlist⟩
    · cases hnil
    · obtain ⟨t, r, ht, ha, htail⟩ := exists_tail hlist
      refine (reaches_acceptToken hvalues).bind fun b c₁ hb => ?_
      obtain ⟨rfl, rfl⟩ := hb
      have hlength := Cursor.length_of_values_eq_cons hvalues
      refine (helement c₁ a t r (by omega) ht ha).harden.bind fun a' c₂ ha' => ?_
      obtain ⟨hc₂, hX⟩ := ha'
      have hlt := hE _ _ _ ha
      rw [← hc₂, c₁.length_values, c₂.length_values] at hlt
      rw [← hc₂] at htail
      refine (ih (by omega) (by omega) htail).bind fun as' c₃ has' => .pure ?_
      exact ⟨has'.1, fun x => by rw [hX x, has'.2 x]⟩

theorem reaches_commaSeparated (hc : c.tokens.length < k)
    (hsoft : ∀ c ts, c.tokens.length < k → c.values = .closeParen :: ts → ∃ e,
      element c = .error (.soft e))
    (h : CommaList E as c.values (.closeParen :: last)) :
    Reaches (commaSeparated element) c fun as' ts => ts = .closeParen :: last ∧ (X → as' = as) := by
  cases as with
  | nil =>
    have hvalues : c.values = .closeParen :: last := by
      generalize c.values = ts at h
      cases h
      rfl
    obtain ⟨e, he⟩ := hsoft c last hc hvalues
    exact .bind_of_eq_ok (attempt_of_error he) (.pure ⟨hvalues, fun _ => rfl⟩)
  | cons a as =>
    obtain ⟨t, r, ht, ha, htail⟩ := exists_tail h
    refine (helement c a t r hc ht ha).attempt_bind fun a' c₁ ha' => ?_
    obtain ⟨hc₁, hX⟩ := ha'
    have hlt := hE _ _ _ ha
    rw [← hc₁, c.length_values, c₁.length_values] at hlt
    rw [← hc₁] at htail
    have hrest := reaches_afterCommas helement hE (by omega) (Nat.lt_succ_self _) htail
    refine hrest.rounds.bind fun as' c₂ has' => .pure ?_
    exact ⟨has'.1, fun x => by rw [hX x, has'.2 x]⟩

end Firestorm.Parser
