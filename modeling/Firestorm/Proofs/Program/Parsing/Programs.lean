import Firestorm.Program.Parser
import Firestorm.Proofs.Program.Parsing.Statements

/-!
# Reading programs

A program is read exactly if the grammar has a derivation of its tokens, and what is read is then
the tree of the derivation in which each negation extends as far as it can. There is one such tree,
since the parser finds every one of them.

## Main results

* `parse_sound`, `parse_of_spells`, `exists_parse_of_spells`.
* `Parser.itemsWithin_sound`, `Parser.reaches_itemsWithin`: definitions are read as the grammar
  says.
* `parse_accepts_grammar`: the parser accepts the grammar.
-/

namespace Firestorm

variable {b : Binding} {value : Literal}

namespace Grammar

/-! ### Definitions take tokens -/

section

variable {ts rest : List Token}
variable {a : Attributes} {negates : List Token → List Token → Prop}

theorem CommaList.length_le {α : Type} {E : α → List Token → List Token → Prop} {as : List α}
    (hE : ∀ a ts rest, E a ts rest → rest.length < ts.length) (h : CommaList E as ts rest) :
    rest.length ≤ ts.length := by
  induction h with
  | nil => exact Nat.le_refl _
  | last ha => exact Nat.le_of_lt (hE _ _ _ ha)
  | more ha _ ih =>
    have hlt := hE _ _ _ ha
    rw [List.length_cons] at hlt
    omega

theorem SpellsAttribute.length_lt (h : SpellsAttribute a ts rest) : rest.length < ts.length := by
  obtain ⟨name, -, rfl⟩ := h
  exact Nat.lt_succ_self _

theorem SpellsAttributes.length_le (h : SpellsAttributes a ts rest) : rest.length ≤ ts.length := by
  cases h with
  | none => exact Nat.le_refl _
  | list h =>
    have hle := h.length_le fun _ _ _ ha => ha.length_lt
    simp only [List.length_cons] at hle ⊢
    omega

theorem SpellsParameter.length_lt (h : SpellsParameter b ts rest) : rest.length < ts.length := by
  rw [h, Binding.tokens]
  simp only [List.length_append, List.length_singleton]
  omega

theorem SpellsInitial.length_lt (h : SpellsInitial value ts rest) : rest.length < ts.length := by
  cases h <;> simp only [List.length_cons] <;> omega

theorem SpellsBody.length_lt {body : Body} (h : SpellsBody negates a body ts rest) :
    rest.length < ts.length := by
  cases h with
  | assembly =>
    simp only [List.length_cons]
    omega
  | statements _ h => exact h.length_add_least_le

theorem SpellsItem.mono {negates' : List Token → List Token → Prop} {item : Item}
    (hnegates : ∀ ts rest, negates ts rest → negates' ts rest)
    (h : SpellsItem negates item ts rest) : SpellsItem negates' item ts rest := by
  cases h with
  | global b => exact .global b
  | initialised b h => exact .initialised b h
  | function name returns hattributes hparameters hbody =>
    refine .function name returns hattributes hparameters ?_
    cases hbody with
    | assembly text h => exact .assembly text h
    | statements h hbody => exact .statements h (hbody.mono hnegates)

/-- The condition on negations may always be dropped. -/
theorem SpellsProgram.any {p : Program} (h : SpellsProgram negates p ts) :
    SpellsProgram Any p ts := by
  obtain ⟨items⟩ := p
  change SpellsItems negates items ts at h
  change SpellsItems Any items ts
  induction h with
  | nil => exact .nil
  | cons hitem _ ih => exact .cons (hitem.mono fun _ _ _ => trivial) ih

theorem SpellsItem.length_lt {item : Item} (h : SpellsItem negates item ts rest) :
    rest.length < ts.length := by
  cases h with
  | global b =>
    simp only [List.length_append, List.length_cons]
    omega
  | initialised b h =>
    have hlt := h.length_lt
    simp only [List.length_append, List.length_cons] at hlt ⊢
    omega
  | function name returns hattributes hparameters hbody =>
    have ha := hattributes.length_le
    have hp := hparameters.length_le fun _ _ _ hb => hb.length_lt
    have hb := hbody.length_lt
    simp only [List.length_append, List.length_cons] at ha hp ⊢
    omega

end

end Grammar

namespace Parser

open Fallible Grammar

variable {negates : List Token → List Token → Prop} {g : GlobalDef} {ts rest : List Token}
  {f : FunctionDef} {c : Cursor}

/-! ### Global variables -/

section

variable {a : Attributes}

theorem literal_sound :
    Yields literal c fun value c' => SpellsInitial value c.values c'.values := by
  refine yields_next.bind fun t c₁ hvalues => ?_
  rw [hvalues]
  cases t with
  | int value => exact .pure (.literal (.number value))
  | str content => exact .pure (.literal (.str content))
  | chr byte => exact .pure (.literal (.chr byte))
  | minus =>
    refine yields_next.bind fun t' c₂ hvalues' => ?_
    rw [hvalues']
    cases t' with
    | int value => exact .pure (.negative value)
    | _ => exact .of_error rfl
  | _ => exact .of_error rfl

theorem reaches_literal (h : SpellsInitial value c.values rest) :
    Reaches literal c fun value' ts => value' = value ∧ ts = rest := by
  generalize hvalues : c.values = ts at h
  cases h with
  | literal =>
    refine (reaches_next hvalues).bind fun t c₁ ht => ?_
    obtain ⟨rfl, hc₁⟩ := ht
    cases value <;> exact .pure ⟨rfl, hc₁⟩
  | negative value =>
    refine (reaches_next hvalues).bind fun t c₁ ht => ?_
    obtain ⟨rfl, hc₁⟩ := ht
    refine (reaches_next hc₁).bind fun t c₂ ht => ?_
    obtain ⟨rfl, hc₂⟩ := ht
    exact .pure ⟨rfl, hc₂⟩

theorem globalDef_sound :
    Yields globalDef c fun g c' => SpellsItem negates (.global g) c.values c'.values := by
  refine .attempt_bind (datatype_sound.soften.mono fun d c₁ hd => ?_) fun _ => ?_
  · refine yields_identifier.bind fun name c₂ hname => ?_
    rw [hd, hname, ← List.singleton_append, ← List.append_assoc]
    refine .acceptToken_bind (fun c₃ hassign => ?_) fun _ => ?_
    · have hvalue : Yields (some <$> literal) c₃ fun init c' => ∃ value, init = some value ∧
          SpellsInitial value c₃.values c'.values :=
        .map (literal_sound.mono fun value _ h => ⟨value, rfl, h⟩)
      refine hvalue.bind fun init c₄ h => yields_expect.bind fun _ c₅ hend => .pure ?_
      obtain ⟨value, rfl, h⟩ := h
      rw [hend] at h
      rw [hassign]
      exact .initialised ⟨name, d⟩ h
    · refine .bind_of_ok rfl (yields_expect.bind fun _ c₃ hend => .pure ?_)
      rw [hend]
      exact .global ⟨name, d⟩
  · exact Yields.bind (Q := fun _ _ => True) (fun _ _ _ => trivial) fun _ _ _ => .of_error rfl

theorem reaches_globalDef (h : SpellsItem negates (.global g) c.values rest) :
    Reaches globalDef c fun g' ts => g' = g ∧ ts = rest := by
  generalize hvalues : c.values = ts at h
  cases h with
  | global b =>
    refine reaches_of_binding hvalues fun c₁ hc₁ =>
      (reaches_identifier hc₁).bind fun name c₂ hname => ?_
    obtain ⟨rfl, hc₂⟩ := hname
    have hne : c₂.values.head? ≠ some .assign := by
      rw [hc₂]
      simp
    refine .bind_of_eq_ok (acceptToken_of_head hne) ?_
    exact (reaches_expect hc₂).bind fun _ c₃ hc₃ => .pure ⟨rfl, hc₃⟩
  | initialised b h =>
    refine reaches_of_binding hvalues fun c₁ hc₁ =>
      (reaches_identifier hc₁).bind fun name c₂ hname => ?_
    obtain ⟨rfl, hc₂⟩ := hname
    refine (reaches_acceptToken hc₂).bind fun b c₃ hb => ?_
    obtain ⟨rfl, rfl⟩ := hb
    obtain ⟨value, c₄, hvalue, rfl, hc₄⟩ := reaches_literal h
    refine .bind_of_eq_ok (map_eq_ok.2 ⟨value, hvalue, rfl⟩) ?_
    exact (reaches_expect hc₄).bind fun _ c₅ hc₅ => .pure ⟨rfl, hc₅⟩

/-! ### Headers of functions -/

theorem functionAttribute_sound :
    Yields functionAttribute c fun a c' => SpellsAttribute a c.values c'.values := by
  refine yields_identifier.soften.bind fun name c₁ hname => ?_
  cases ha : Attributes.ofName? name with
  | none => exact .of_error rfl
  | some a => exact .pure ⟨name, ha, hname⟩

theorem reaches_functionAttribute (h : SpellsAttribute a c.values rest) :
    Reaches functionAttribute c fun a' ts => ts = rest ∧ (True → a' = a) := by
  obtain ⟨name, ha, hvalues⟩ := h
  refine (reaches_identifier hvalues).soften.bind fun name' c₁ hname => ?_
  obtain ⟨rfl, hc₁⟩ := hname
  simp only [ha]
  exact .pure ⟨hc₁, fun _ => rfl⟩

theorem functionAttribute_closeParen (hvalues : c.values = .closeParen :: ts) :
    ∃ e, functionAttribute c = .error (.soft e) := by
  have hnext := next_of_head (head?_and_values_skip hvalues).1
  exact ⟨_, bind_of_error (soften_of_error (bind_of_ok hnext))⟩

theorem attributeList_sound :
    Yields attributeList c fun a c' => SpellsAttributes a c.values c'.values := by
  refine .acceptToken_bind (fun c₁ hopen => ?_) fun _ => .pure .none
  refine (commaSeparated_sound_of_length_lt (fun _ _ _ ha => SpellsAttribute.length_lt ha) fun _ =>
    functionAttribute_sound).bind fun all c₂ hall => yields_expect.bind fun _ c₃ hclose => .pure ?_
  rw [hclose] at hall
  rw [hopen]
  exact .list hall

theorem reaches_attributeList {name : String} (h : SpellsAttributes a c.values (.id name :: rest)) :
    Reaches attributeList c fun a' ts => a' = a ∧ ts = .id name :: rest := by
  generalize hvalues : c.values = ts at h
  cases h with
  | none =>
    have hne : c.values.head? ≠ some .openParen := by
      rw [hvalues]
      simp
    exact .bind_of_eq_ok (acceptToken_of_head hne) (.pure ⟨rfl, hvalues⟩)
  | list h =>
    refine (reaches_acceptToken hvalues).bind fun b c₁ hb => ?_
    obtain ⟨rfl, rfl⟩ := hb
    refine (reaches_commaSeparated (X := True) (fun c a t r _ _ ha => reaches_functionAttribute ha)
      (fun _ _ _ ha => ha.length_lt) (Nat.lt_succ_self _)
      (fun c ts _ hts => functionAttribute_closeParen hts) h).bind fun all c₂ hall => ?_
    obtain ⟨hc₂, hall⟩ := hall
    obtain rfl := hall trivial
    exact (reaches_expect hc₂).bind fun _ c₃ hc₃ => .pure ⟨rfl, hc₃⟩

theorem parameter_sound : Yields parameter c fun b c' => SpellsParameter b c.values c'.values := by
  refine datatype_sound.soften.bind fun d c₁ hd => yields_identifier.bind fun name c₂ hname =>
    .pure ?_
  rw [SpellsParameter, hd, hname, Binding.tokens, List.append_assoc]
  rfl

theorem reaches_parameter (h : SpellsParameter b c.values rest) :
    Reaches parameter c fun b' ts => ts = rest ∧ (True → b' = b) := by
  rw [SpellsParameter, Binding.tokens, List.append_assoc] at h
  refine (reaches_datatype h (by simp)).soften.bind fun d c₁ hd => ?_
  obtain ⟨rfl, hc₁⟩ := hd
  refine (reaches_identifier hc₁).bind fun name c₂ hname => ?_
  obtain ⟨rfl, hc₂⟩ := hname
  exact .pure ⟨hc₂, fun _ => rfl⟩

theorem parameter_closeParen (hvalues : c.values = .closeParen :: ts) :
    ∃ e, parameter c = .error (.soft e) := by
  have hnext := next_of_head (head?_and_values_skip hvalues).1
  exact ⟨_, bind_of_error (soften_of_error (bind_of_ok hnext))⟩

/-! ### Functions -/

theorem assemblyText_sound : Yields assemblyText c fun text c' =>
    c.values = .openCurly :: .str text :: .closeCurly :: c'.values := by
  refine yields_expect.bind fun _ c₁ hopen => yields_next.bind fun t c₂ ht => ?_
  rw [hopen, ht]
  split
  · refine yields_expect.bind fun _ c₃ hclose => .pure ?_
    rw [hclose]
  · exact .of_error rfl

theorem reaches_assemblyText {text : String}
    (h : c.values = .openCurly :: .str text :: .closeCurly :: rest) :
    Reaches assemblyText c fun text' ts => text' = text ∧ ts = rest := by
  refine (reaches_expect h).bind fun _ c₁ hc₁ => ?_
  refine (reaches_next hc₁).bind fun t c₂ ht => ?_
  obtain ⟨rfl, hc₂⟩ := ht
  exact (reaches_expect hc₂).bind fun _ c₃ hc₃ => .pure ⟨rfl, hc₃⟩

theorem functionDef_sound :
    Yields functionDef c fun f c' => SpellsItem Longest (.function f) c.values c'.values := by
  refine yields_expect.bind fun _ c₁ hfunction =>
    attributeList_sound.bind fun attributes c₂ hheader => ?_
  refine yields_identifier.bind fun name c₃ hname => yields_expect.bind fun _ c₄ hopen => ?_
  refine (commaSeparated_sound_of_length_lt (fun _ _ _ hb => SpellsParameter.length_lt hb) fun _ =>
    parameter_sound).bind fun parameters c₅ hlist => yields_expect.bind fun _ c₆ hclose => ?_
  refine yields_expect.bind fun _ c₇ harrow => datatype_sound.bind fun returns c₈ hreturns => ?_
  rw [hname, hopen] at hheader
  rw [hclose, harrow, hreturns] at hlist
  have hend : ∀ {p : Parser Body}, (Yields p c₈ fun body c' =>
      SpellsBody Longest attributes body c₈.values c'.values) →
      Yields (p >>= fun body => pure (⟨name, attributes, parameters, returns, body⟩ : FunctionDef))
        c₈ fun f c' => SpellsItem Longest (.function f) c.values c'.values := by
    rw [hfunction]
    exact fun hp => hp.bind fun body c₉ hbody => .pure (.function name returns hheader hlist hbody)
  split
  · next hassembly =>
    refine hend (.map (assemblyText_sound.mono fun text c₉ htext => ?_))
    rw [htext]
    exact .assembly text hassembly
  · next hassembly =>
    exact hend (.map (block_sound.mono fun ss c₉ hss =>
      .statements (Bool.not_eq_true _ ▸ hassembly) hss))

end

theorem openCurly_of_body {a : Attributes} {body : Body} (h : SpellsBody negates a body ts rest) :
    ts.head? = some .openCurly := by
  cases h with
  | assembly => rfl
  | statements _ h =>
    obtain ⟨ts', rfl⟩ := openCurly_of_block h
    rfl

theorem head_of_function (h : SpellsItem negates (.function f) ts rest) :
    ts.head? = some (.keyword .function) := by
  cases h
  rfl

theorem head_of_global (h : SpellsItem negates (.global g) ts rest) :
    ∃ kind : Kind, ts.head? = some kind.token := by
  have hbinding : ∀ (b : Binding) (rest : List Token),
      (b.tokens ++ rest).head? = some b.datatype.kind.token := by
    intro b rest
    rw [Binding.tokens, Datatype.tokens]
    split <;> rfl
  cases h with
  | global b => exact ⟨_, hbinding b _⟩
  | initialised b => exact ⟨_, hbinding b _⟩

section

variable {negates : List Token → List Token → Prop} {X : Prop}
  (hexpr : ReadsExpr negates X)
include hexpr

theorem reaches_functionDef (h : SpellsItem negates (.function f) c.values rest) :
    Reaches functionDef c fun f' ts => ts = rest ∧ (X → f' = f) := by
  generalize hvalues : c.values = ts at h
  cases h with
  | function name returns hheader hparameters hbody =>
    refine (reaches_expect hvalues).bind fun _ c₁ hc₁ => ?_
    subst hc₁
    refine (reaches_attributeList hheader).bind fun attributes c₂ ha => ?_
    obtain ⟨rfl, hc₂⟩ := ha
    refine (reaches_identifier hc₂).bind fun name' c₃ hname => ?_
    obtain ⟨rfl, hc₃⟩ := hname
    refine (reaches_expect hc₃).bind fun _ c₄ hc₄ => ?_
    subst hc₄
    refine (reaches_commaSeparated (X := True) (fun c b t r _ _ hb => reaches_parameter hb)
      (fun _ _ _ hb => hb.length_lt) (Nat.lt_succ_self _)
      (fun c ts _ hts => parameter_closeParen hts) hparameters).bind fun parameters' c₅ hp => ?_
    obtain ⟨hc₅, hp⟩ := hp
    obtain rfl := hp trivial
    refine (reaches_expect hc₅).bind fun _ c₆ hc₆ => ?_
    refine (reaches_expect hc₆).bind fun _ c₇ hc₇ => ?_
    have hne := openCurly_of_body hbody
    refine (reaches_datatype hc₇ (by simp [hne])).bind fun returns' c₈ hreturns => ?_
    obtain ⟨rfl, hc₈⟩ := hreturns
    cases hbody with
    | assembly text hassembly =>
      rw [if_pos hassembly]
      obtain ⟨_, c₉, htext, rfl, hc₉⟩ := reaches_assemblyText hc₈
      exact .bind_of_eq_ok (map_eq_ok.2 ⟨_, htext, rfl⟩) (.pure ⟨hc₉, fun _ => rfl⟩)
    | statements hassembly h =>
      rw [if_neg (by rw [hassembly]; exact Bool.false_ne_true)]
      subst hc₈
      obtain ⟨body', c₉, hbody', hc₉, hX⟩ := reaches_block hexpr h
      refine .bind_of_eq_ok (map_eq_ok.2 ⟨_, hbody', rfl⟩) (.pure ⟨hc₉, fun x => ?_⟩)
      rw [hX x]

theorem reaches_itemsWithin (n : Nat) {items : List Item} (h : SpellsItems negates items c.values)
    (hn : c.tokens.length < n) :
    Reaches (itemsWithin n) c fun items' ts => ts = [] ∧ (X → items' = items) := by
  induction n generalizing c items with
  | zero => omega
  | succ n ih =>
    refine .bind_of_eq_ok (peek?_eq c) ?_
    generalize hvalues : c.values = ts at h
    cases h with
    | nil => exact .pure ⟨hvalues, fun _ => rfl⟩
    | @cons item items _ rest hitem hitems =>
      have hlt := hitem.length_lt
      rw [← hvalues] at hitem hlt ⊢
      cases item with
      | function f =>
        rw [head_of_function hitem]
        refine (reaches_functionDef hexpr hitem).bind fun f' c₁ hf => ?_
        obtain ⟨rfl, hf⟩ := hf
        rw [Cursor.length_values, Cursor.length_values] at hlt
        refine (ih hitems (by omega)).bind fun items' c₂ hitems' => .pure ⟨hitems'.1, fun x => ?_⟩
        rw [hf x, hitems'.2 x]
      | global g =>
        obtain ⟨kind, hkind⟩ := head_of_global hitem
        rw [hkind]
        have hread : Reaches (do
            let g ← globalDef
            return .global g :: (← itemsWithin n)) c fun items' ts =>
              ts = [] ∧ (X → items' = .global g :: items) := by
          refine (reaches_globalDef hitem).bind fun g' c₁ hg => ?_
          obtain ⟨rfl, rfl⟩ := hg
          rw [Cursor.length_values, Cursor.length_values] at hlt
          refine (ih hitems (by omega)).bind fun items' c₂ hitems' => .pure ⟨hitems'.1, fun x => ?_⟩
          rw [hitems'.2 x]
        cases kind <;> exact hread

end

theorem itemsWithin_sound (n : Nat) (hn : c.tokens.length < n) :
    Yields (itemsWithin n) c fun items _ => SpellsItems Longest items c.values := by
  induction n generalizing c with
  | zero => omega
  | succ n ih =>
    have hcons : ∀ {item c₁}, SpellsItem Longest item c.values c₁.values →
        Yields (do return item :: (← itemsWithin n)) c₁ fun items _ =>
        SpellsItems Longest items c.values := by
      intro item c₁ hitem
      have hlt := hitem.length_lt
      rw [Cursor.length_values, Cursor.length_values] at hlt
      exact (ih (by omega)).bind fun items c₂ hitems => .pure (.cons hitem hitems)
    refine .peek_bind ?_
    split
    · next hhead =>
      rw [List.head?_eq_none_iff.1 hhead]
      exact .pure .nil
    · exact functionDef_sound.bind fun f c₁ hf => hcons hf
    · exact globalDef_sound.bind fun g c₁ hg => hcons hg

end Parser

/-! ### Programs -/

open Grammar

section

variable {tokens : List (Located Token)} {p : Program}

/-- What is read as a program is one, and each negation in it extends as far as it can. -/
theorem parse_sound (h : parse tokens = .ok p) :
    SpellsProgram Longest p (tokens.map Located.value) := by
  unfold parse at h
  split at h
  · next items c' hitems =>
    cases h
    exact Parser.itemsWithin_sound _ (Nat.lt_succ_self _) items c' hitems
  · cases h

theorem exists_parse_of_reaches {X : Prop}
    (h : Parser.Reaches (Parser.rounds Parser.itemsWithin) ⟨0, tokens⟩ fun items ts =>
      ts = [] ∧ (X → items = p.items)) :
    ∃ p', parse tokens = .ok p' ∧ (X → p' = p) := by
  obtain ⟨items, c', hitems, -, hX⟩ := h
  refine ⟨⟨items⟩, ?_, fun x => ?_⟩
  · simp only [parse, hitems]
  · rw [hX x]

/-- A program is read. -/
theorem exists_parse_of_spells (h : SpellsProgram Any p (tokens.map Located.value)) :
    ∃ p', parse tokens = .ok p' := by
  have hreaches := (Parser.reaches_itemsWithin Parser.readsExpr_any _ (c := ⟨0, tokens⟩) h
    (Nat.lt_succ_self _)).rounds
  obtain ⟨p', hp', -⟩ := exists_parse_of_reaches hreaches
  exact ⟨p', hp'⟩

/-- A program in which each negation extends as far as it can is the one that is found. -/
theorem parse_of_spells (h : SpellsProgram Longest p (tokens.map Located.value)) :
    parse tokens = .ok p := by
  have hreaches := (Parser.reaches_itemsWithin Parser.readsExpr_longest _ (c := ⟨0, tokens⟩) h
    (Nat.lt_succ_self _)).rounds
  obtain ⟨p', hp', heq⟩ := exists_parse_of_reaches hreaches
  rw [hp', heq trivial]

end

/-- The parser accepts exactly the grammar. It reads a program if the tokens have any derivation,
and it reads the tree of the derivation in which each negation extends as far as it can, which is
the only one. -/
theorem parse_accepts_grammar (tokens : List (Located Token)) :
    ((∃ p, parse tokens = .ok p) ↔ ∃ p, SpellsProgram Any p (tokens.map Located.value)) ∧
      ∀ p, parse tokens = .ok p ↔ SpellsProgram Longest p (tokens.map Located.value) := by
  refine ⟨⟨?_, ?_⟩, fun p => ⟨parse_sound, parse_of_spells⟩⟩
  · rintro ⟨p, hp⟩
    exact ⟨p, (parse_sound hp).any⟩
  · rintro ⟨p, hp⟩
    exact exists_parse_of_spells hp

end Firestorm
