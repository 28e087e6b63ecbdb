import Firestorm.Proofs.Program.Parsing.Programs
import Firestorm.Proofs.Program.Parts
import Firestorm.Token.Lexer

/-!
# The names of a program

Every name that a program gives to a function, a parameter, a local or a global variable is a word:
it comes from an identifier of the text, and identifiers are letters, digits and underscores that do
not start with a digit. The header of a function decides whether its body is text.

A program that has been read is spelled by its tokens. Phrases only take tokens away, and the names
that they give are among the tokens they take.

## Main definitions

* `IsWord`, `Program.Worded`.

## Main results

* `Grammar.Spells.names`, `Grammar.SpellsItem.names`, `worded_of_parse`.
-/

namespace Firestorm

open Fallible

variable {c : Char}

/-- A name of letters, digits and underscores that does not start with a digit. -/
def IsWord (name : String) : Prop :=
  ∃ c cs, name.toList = c :: cs ∧ Lexer.isWordStart c = true ∧ ∀ d ∈ cs, Lexer.isWordPart d = true

instance (name : String) : Decidable (IsWord name) :=
  match h : name.toList with
  | [] => .isFalse (by simp [IsWord, h])
  | c :: cs =>
    decidable_of_iff (Lexer.isWordStart c = true ∧ cs.all Lexer.isWordPart = true)
      (by simp [IsWord, h])

theorem toNat_of_between {lo hi : UInt32} (h : c.val ≥ lo ∧ c.val ≤ hi) :
    lo.toNat ≤ c.toNat ∧ c.toNat ≤ hi.toNat :=
  h.imp UInt32.le_iff_toNat_le.1 UInt32.le_iff_toNat_le.1

theorem toNat_of_isDigit (h : c.isDigit = true) : 48 ≤ c.toNat ∧ c.toNat ≤ 57 := by
  have hrange := (Bool.and_eq_true_iff.1 h).imp of_decide_eq_true of_decide_eq_true
  exact toNat_of_between hrange

theorem toNat_of_isWordStart (h : Lexer.isWordStart c = true) :
    (65 ≤ c.toNat ∧ c.toNat ≤ 90) ∨ c.toNat = 95 ∨ (97 ≤ c.toNat ∧ c.toNat ≤ 122) := by
  rcases Bool.or_eq_true_iff.1 h with h | h
  · rcases Bool.or_eq_true_iff.1 h with h | h
    · exact .inl (toNat_of_between (of_decide_eq_true h))
    · have hrange := (Bool.and_eq_true_iff.1 h).imp of_decide_eq_true of_decide_eq_true
      exact .inr (.inr (toNat_of_between hrange))
  · rw [beq_iff_eq.1 h]
    exact .inr (.inl rfl)

/-- The code points of letters, digits and the underscore. -/
theorem toNat_of_isWordPart (h : Lexer.isWordPart c = true) :
    (48 ≤ c.toNat ∧ c.toNat ≤ 57) ∨ (65 ≤ c.toNat ∧ c.toNat ≤ 90) ∨ c.toNat = 95 ∨
      (97 ≤ c.toNat ∧ c.toNat ≤ 122) := by
  rcases Bool.or_eq_true_iff.1 h with h | h
  · rcases Bool.or_eq_true_iff.1 h with h | h
    · exact .inr (toNat_of_isWordStart (Bool.or_eq_true_iff.2 (.inl h)))
    · exact .inl (toNat_of_isDigit h)
  · exact .inr (toNat_of_isWordStart (Bool.or_eq_true_iff.2 (.inr h)))

theorem isBlank_of_isWordPart (h : Lexer.isWordPart c = true) : Text.isBlank c = false := by
  have h := toNat_of_isWordPart h
  simp only [Text.isBlank, Bool.or_eq_false_iff, Bool.and_eq_false_iff, decide_eq_false_iff_not,
    beq_eq_false_iff_ne]
  omega

theorem isWordPart_of_isWordStart (h : Lexer.isWordStart c = true) : Lexer.isWordPart c = true := by
  refine Bool.or_eq_true_iff.2 ((Bool.or_eq_true_iff.1 h).imp_left fun h => ?_)
  exact Bool.or_eq_true_iff.2 (.inl h)

theorem IsWord.isWordPart {name : String} (h : IsWord name) :
    ∀ c ∈ name.toList, Lexer.isWordPart c = true := by
  obtain ⟨c, cs, hname, hc, hcs⟩ := h
  rw [hname]
  exact List.forall_mem_cons.2 ⟨isWordPart_of_isWordStart hc, hcs⟩

theorem IsWord.ne_nil {name : String} (h : IsWord name) : name.toList ≠ [] := by
  obtain ⟨c, cs, hname, -, -⟩ := h
  rw [hname]
  exact List.cons_ne_nil _ _

theorem ne_of_isWordPart {d : Char} (h : Lexer.isWordPart c = true)
    (hd : Lexer.isWordPart d = false) : c ≠ d := by
  rintro rfl
  rw [h] at hd
  cases hd

/-- An identifier is a word. -/
def Token.Worded (t : Token) : Prop :=
  ∀ name, t = .id name → IsWord name

/-- The names of a function, its parameters and its local variables are words, and its header says
whether its body is text. -/
structure FunctionDef.Worded (f : FunctionDef) : Prop where
  name : IsWord f.name
  locals : ∀ b ∈ f.locals, IsWord b.name
  assembly : f.attributes.assembly = true ↔ f.IsAssembly

/-- The names that a program gives are words, and its headers fit its bodies. -/
structure Program.Worded (p : Program) : Prop where
  functions : ∀ f ∈ p.functions, f.Worded
  globals : ∀ g ∈ p.globals, IsWord g.binding.name

/-! ### Identifiers of a text -/

namespace Lexer

variable {cs rest : List Char}

theorem worded_of_symbol? {token : Token} {width : Nat}
    (h : symbol? cs = some (token, width, rest)) : token.Worded := by
  rintro name rfl
  unfold symbol? at h
  split at h <;> cases h

theorem worded_wordToken (hc : isWordStart c = true) (hcs : ∀ d ∈ cs, isWordPart d = true) :
    (wordToken (String.ofList (c :: cs))).Worded := by
  rintro name hname
  unfold wordToken at hname
  split at hname
  · cases hname
  · cases hname
    exact ⟨c, cs, String.toList_ofList, hc, hcs⟩

theorem integer_eq_token {start value offset next : Nat} {t : Located Token}
    (h : integer start value offset cs = .token t next rest) : ∃ w, t.value = .int w := by
  induction cs generalizing value offset with
  | nil =>
    cases h
    exact ⟨_, rfl⟩
  | cons c cs ih =>
    unfold integer at h
    split at h
    · dsimp only at h
      split at h
      · exact ih h
      · cases h
    · cases h
      exact ⟨_, rfl⟩

theorem worded_of_lexeme {start next : Nat} {t : Located Token}
    (h : lexeme start c cs = .token t next rest) : t.value.Worded := by
  unfold lexeme at h
  split at h
  · next hsymbol =>
    cases h
    exact worded_of_symbol? hsymbol
  · split at h
    · unfold quoted at h
      dsimp only at h
      split at h
      · cases h
      · cases h
        rintro name ⟨⟩
    · split at h
      · unfold character at h
        split at h
        · cases h
        · split at h
          · split at h
            · cases h
              rintro name ⟨⟩
            · cases h
          · cases h
      · split at h
        · next hstart =>
          cases h
          exact worded_wordToken hstart (List.all_eq_true.1 List.all_takeWhile)
        · split at h
          · obtain ⟨w, hw⟩ := integer_eq_token h
            rintro name hname
            rw [hw] at hname
            cases hname
          · cases h

theorem worded_of_run {offset : Nat} {tokens : List (Located Token)}
    (h : run offset cs = .ok tokens) : ∀ t ∈ tokens, t.value.Worded := by
  fun_induction run offset cs generalizing tokens with
  | case1 =>
    cases h
    simp
  | case2 offset cs token next rest hstep this tokens' hrun ih =>
    cases h
    rintro t ht
    rcases List.mem_cons.1 ht with rfl | ht
    · unfold step at hstep
      split at hstep
      · cases hstep
      · exact worded_of_lexeme hstep
    · exact ih hrun t ht
  | case3 => cases h
  | case4 => cases h
  | case5 => cases h

end Lexer

/-! ### Names in phrases -/

namespace Grammar

variable {negates : List Token → List Token → Prop} {ts rest : List Token}

/-- The statements of a phrase. -/
def Phrase.trees : Phrase → List Stmt
  | .expr .. | .arguments _ => []
  | .simple s | .conditional s => [s]
  | .statement body | .statements body | .block body => body

/-- A phrase takes tokens away, and the variables that it declares are named by tokens. -/
theorem Spells.names {ph : Phrase} (h : Spells negates ph ts rest) :
    rest ⊆ ts ∧ ∀ b ∈ Stmt.bindingsOf ph.trees, .id b.name ∈ ts := by
  induction h with
  | _ =>
    simp only [Phrase.trees, Stmt.bindingsOf, Stmt.partsOf, Stmt.parts, Stmt.partsOf_append,
      Binding.tokens] at *
    grind [Stmt.binding?]

theorem CommaList.names {bs : List Binding} (h : CommaList SpellsParameter bs ts rest) :
    rest ⊆ ts ∧ ∀ b ∈ bs, .id b.name ∈ ts := by
  induction h with
  | nil => simp
  | last h =>
    subst h
    simp [Binding.tokens]
  | more h _ ih =>
    subst h
    grind [Binding.tokens]

theorem SpellsAttributes.subset {a : Attributes} (h : SpellsAttributes a ts rest) : rest ⊆ ts := by
  have hlist : ∀ {as ts rest}, CommaList SpellsAttribute as ts rest → rest ⊆ ts := by
    intro as ts rest h
    induction h with
    | nil => simp
    | last h => grind [SpellsAttribute]
    | more h => grind [SpellsAttribute]
  cases h with
  | none => simp
  | list h => grind

theorem SpellsBody.names {a : Attributes} {body : Body} (h : SpellsBody negates a body ts rest) :
    rest ⊆ ts ∧ (∀ b ∈ Stmt.bindingsOf body.block, .id b.name ∈ ts) ∧
      (a.assembly = true ↔ ∃ text, body = .assembly text) := by
  cases h with
  | assembly text h =>
    exact ⟨by grind, by simp [Body.block, Stmt.bindingsOf, Stmt.partsOf], by simp [h]⟩
  | statements h hbody => exact ⟨hbody.names.1, hbody.names.2, by simp [h]⟩

/-- What an item of a worded program is like. -/
def WordedItem : Item → Prop
  | .function f => f.Worded
  | .global g => IsWord g.binding.name

/-- A definition takes tokens away, and it is worded if the identifiers among its tokens are. -/
theorem SpellsItem.names {item : Item} (h : SpellsItem negates item ts rest)
    (hts : ∀ t ∈ ts, t.Worded) : rest ⊆ ts ∧ WordedItem item := by
  cases h with
  | global b => exact ⟨by grind, hts _ (by simp [Binding.tokens]) _ rfl⟩
  | initialised b hvalue =>
    refine ⟨?_, hts _ (by simp [Binding.tokens]) _ rfl⟩
    cases hvalue <;> grind
  | function name returns hattributes hparameters hbody =>
    obtain ⟨hmid, hparameters⟩ := hparameters.names
    obtain ⟨hrest, hbindings, hassembly⟩ := hbody.names
    have hheader := hattributes.subset
    refine ⟨by grind, hts (.id name) (by grind) name rfl,
      fun b hb => hts (.id b.name) ?_ b.name rfl, hassembly⟩
    rcases List.mem_append.1 hb with hb | hb
    · have := hparameters b hb
      grind
    · have := hbindings b hb
      grind

theorem SpellsItems.worded {items : List Item} (h : SpellsItems negates items ts)
    (hts : ∀ t ∈ ts, t.Worded) : ∀ item ∈ items, WordedItem item := by
  induction h with
  | nil => simp
  | cons hitem _ ih =>
    obtain ⟨hrest, hworded⟩ := hitem.names hts
    exact List.forall_mem_cons.2 ⟨hworded, ih fun t ht => hts t (hrest ht)⟩

end Grammar

/-- A program that has been read from a text is worded. -/
theorem worded_of_parse {text : String} {tokens : List (Located Token)} {p : Program}
    (htokens : tokenize text = .ok tokens) (hparse : parse tokens = .ok p) : p.Worded := by
  have hitems := (parse_sound hparse).worded fun t ht => by
    obtain ⟨located, hlocated, rfl⟩ := List.mem_map.1 ht
    exact Lexer.worded_of_run htokens located hlocated
  refine ⟨fun f hf => ?_, fun g hg => ?_⟩
  · obtain ⟨item, hmem, hitem⟩ := List.mem_filterMap.1 hf
    cases item with
    | function f' =>
      cases hitem
      exact hitems _ hmem
    | global g => cases hitem
  · obtain ⟨item, hmem, hitem⟩ := List.mem_filterMap.1 hg
    cases item with
    | function f' => cases hitem
    | global g =>
      cases hitem
      exact hitems _ hmem

end Firestorm
