import Firestorm.Proofs.Program.Parsing.Programs
import Firestorm.Proofs.Program.Parts

/-!
# Writing programs

A program is written as a list of tokens: operators stand in parentheses where they are operands,
the blocks of a conditional stand in braces, and the attributes of a function are written by their
names. The parser reads the same program from these tokens, wherever they stand.

What is written has a derivation whose tree is the program. The only negations in it that are not
closed in by parentheses end where no operator follows, so each of them extends as far as it can.

## Main definitions

* `Expr.tokens`, `Stmt.tokens`, `Item.tokens`, `Program.tokens`.

## Main results

* `Grammar.longest_of_stops`, `Grammar.spellsProgram_tokens`.
* `parse_tokens`: reading undoes writing.
-/

namespace Firestorm

open Grammar

/-! ### Tokens of programs -/

/-- Lists of tokens with commas between them. -/
def commaTokens : List (List Token) → List Token
  | [] => []
  | [ts] => ts
  | ts :: ts' :: tss => ts ++ .comma :: commaTokens (ts' :: tss)

/-- The tokens of an expression as an operand: an operator has to stand in parentheses. -/
def Expr.enclosed (e : Expr) (ts : List Token) : List Token :=
  match e with
  | .binary .. | .compare .. | .unary .. | .not _ => .openParen :: (ts ++ [.closeParen])
  | .literal _ | .lookup _ | .index .. | .call .. => ts

mutual

/-- The tokens of an expression. -/
def Expr.tokens : Expr → List Token
  | .literal value => [value.token]
  | .lookup name => [.id name]
  | .index name i => .id name :: .openSquare :: (tokens i ++ [.closeSquare])
  | .call callee arguments =>
    .id callee :: .openParen :: (commaTokens (tokensOfAll arguments) ++ [.closeParen])
  | .binary op left right =>
    left.enclosed (tokens left) ++ op.token :: right.enclosed (tokens right)
  | .compare op left right =>
    left.enclosed (tokens left) ++ op.token :: right.enclosed (tokens right)
  | .unary op operand => op.token :: operand.enclosed (tokens operand)
  | .not operand => .not :: operand.enclosed (tokens operand)

/-- The tokens of each of the given expressions. -/
def Expr.tokensOfAll : List Expr → List (List Token)
  | [] => []
  | e :: es => tokens e :: tokensOfAll es

end

/-- The tokens of a block. -/
def braces (ts : List Token) : List Token :=
  .openCurly :: (ts ++ [.closeCurly])

mutual

/-- The tokens of a statement. -/
def Stmt.tokens : Stmt → List Token
  | .declare b none => b.tokens ++ [.semicolon]
  | .declare b (some e) => b.tokens ++ .assign :: (e.tokens ++ [.semicolon])
  | .assign name e => .id name :: .assign :: (e.tokens ++ [.semicolon])
  | .assignIndexed name i e =>
    .id name :: .openSquare :: (i.tokens ++ .closeSquare :: .assign :: (e.tokens ++ [.semicolon]))
  | .increment name => [.id name, .increment, .semicolon]
  | .decrement name => [.id name, .decrement, .semicolon]
  | .return_ none => [.keyword .return_, .semicolon]
  | .return_ (some e) => .keyword .return_ :: (e.tokens ++ [.semicolon])
  | .ifThen e body => .keyword .if_ :: (e.tokens ++ braces (tokensOfAll body))
  | .ifElse e body otherwise =>
    .keyword .if_ :: (e.tokens ++ (braces (tokensOfAll body) ++
      .keyword .else_ :: braces (tokensOfAll otherwise)))
  | .while_ e body => .keyword .while_ :: (e.tokens ++ braces (tokensOfAll body))
  | .doWhile body e =>
    .keyword .do_ :: (braces (tokensOfAll body) ++ .keyword .while_ :: (e.tokens ++ [.semicolon]))
  | .loop body => .keyword .loop :: braces (tokensOfAll body)
  | .expr e => e.tokens ++ [.semicolon]

/-- The tokens of statements. -/
def Stmt.tokensOfAll : List Stmt → List Token
  | [] => []
  | s :: ss => tokens s ++ tokensOfAll ss

end

/-- The names of attributes. -/
def Attributes.names (a : Attributes) : List String :=
  (if a.assembly then ["assembly"] else []) ++ (if a.noreturn then ["noreturn"] else []) ++
    (if a.global then ["global"] else []) ++ (if a.keep then ["keep"] else [])

/-- The tokens of the attributes in the header of a function. -/
def Attributes.tokens (a : Attributes) : List Token :=
  if a.names = [] then []
  else .openParen :: (commaTokens (a.names.map fun name => [.id name]) ++ [.closeParen])

/-- The tokens of the body of a function. -/
def Body.tokens : Body → List Token
  | .statements body => braces (Stmt.tokensOfAll body)
  | .assembly text => braces [.str text]

/-- The tokens of a definition. -/
def Item.tokens : Item → List Token
  | .global ⟨b, none⟩ => b.tokens ++ [.semicolon]
  | .global ⟨b, some value⟩ => b.tokens ++ [.assign, value.token, .semicolon]
  | .function f =>
    .keyword .function :: (f.attributes.tokens ++ .id f.name :: .openParen ::
      (commaTokens (f.parameters.map Binding.tokens) ++ .closeParen :: .arrow ::
        (f.returns.tokens ++ f.body.tokens)))

/-- The tokens of a program. -/
def Program.tokens (p : Program) : List Token :=
  p.items.flatMap Item.tokens

namespace Grammar

variable {rest : List Token}

/-! ### What is written is a program -/

/-- A comparison that nothing continues is the longest one. -/
theorem longest_of_stops {e : Expr} {ts : List Token} (h : Spells Any (.expr .comparison e) ts rest)
    (hrest : Stops rest) : Longest ts rest := by
  obtain ⟨c, rfl⟩ : ∃ c : Parser.Cursor, c.values = ts := by
    refine ⟨⟨0, ts.map (⟨0, ·⟩)⟩, ?_⟩
    rw [Parser.Cursor.values, List.map_map]
    exact List.map_id ts
  obtain ⟨e', c', hread, rfl, -⟩ := Parser.readsExpr_any h hrest
  have hfirm := ((Parser.readsLevel_exprWithin _).sound c (Nat.lt_succ_self _) e' c' hread).2.1
  exact longest_of_firm hfirm hrest.1

/-- An expression is read from its tokens in front of what does not continue it, and from its tokens
as an operand in front of anything. -/
def Spelled (e : Expr) : Prop :=
  (∀ rest, Stops rest → Spells Longest (.expr .comparison e) (e.tokens ++ rest) rest) ∧
    ∀ rest, Spells Longest (.expr .primary e) (e.enclosed e.tokens ++ rest) rest

-- The equations are generated once, in front of the proofs that open them.
attribute [local simp] Expr.tokens Stmt.tokens

section

variable {e : Expr}

theorem Spelled.of_primary (he : e.enclosed e.tokens = e.tokens)
    (h : ∀ rest, Spells Longest (.expr .primary e) (e.tokens ++ rest) rest) : Spelled e := by
  refine ⟨fun rest _ => (h rest).of_primary .comparison, fun rest => ?_⟩
  rw [he]
  exact h rest

theorem Spelled.of_operator (he : e.enclosed e.tokens = .openParen :: (e.tokens ++ [.closeParen]))
    (h : ∀ rest, Stops rest → Spells Longest (.expr .comparison e) (e.tokens ++ rest) rest) :
    Spelled e := by
  refine ⟨h, fun rest => ?_⟩
  rw [he, List.cons_append, List.append_assoc]
  exact .parenthesised (h _ (Parser.stops_cons rfl rfl rest))

/-- An operand of a layer. -/
theorem Spelled.operand (h : Spelled e) (l : Level) (rest : List Token) :
    Spells Longest (.expr l e) (e.enclosed e.tokens ++ rest) rest :=
  (h.2 rest).of_primary l

theorem spelled_binary (op : BinaryOp) {left right : Expr} (hleft : Spelled left)
    (hright : Spelled right) : Spelled (.binary op left right) := by
  refine .of_operator rfl fun rest _ => ?_
  have h : Spells Longest (.expr (level op) (.binary op left right))
      ((Expr.binary op left right).tokens ++ rest) rest := by
    rw [Expr.tokens, List.append_assoc]
    exact .binary op (hleft.operand _ _) (hright.operand _ _)
  exact h.comparison

theorem spelled_compare (op : CompareOp) {left right : Expr} (hleft : Spelled left)
    (hright : Spelled right) : Spelled (.compare op left right) := by
  refine .of_operator rfl fun rest _ => ?_
  rw [Expr.tokens, List.append_assoc]
  exact .compare op (hleft.operand _ _) (hright.operand _ _)

theorem spelled_unary (op : UnaryOp) (h : Spelled e) : Spelled (.unary op e) := by
  refine .of_operator rfl fun rest _ => ?_
  rw [Expr.tokens, List.cons_append]
  exact (Spells.unary op (h.operand _ _)).comparison

theorem spelled_not (h : Spelled e) : Spelled (.not e) := by
  refine .of_operator rfl fun rest hrest => ?_
  rw [Expr.tokens, List.cons_append]
  have hoperand := h.operand .comparison rest
  exact (Spells.not (longest_of_stops hoperand.any hrest) hoperand).comparison

end

theorem commaList_commaTokens {α : Type} {E : α → List Token → List Token → Prop}
    {f : α → List Token} {as : List α}
    (h : ∀ a ∈ as, ∀ t r, t = .comma ∨ t = .closeParen → E a (f a ++ t :: r) (t :: r)) :
    CommaList E as (commaTokens (as.map f) ++ .closeParen :: rest) (.closeParen :: rest) := by
  induction as with
  | nil => exact .nil
  | cons a as ih =>
    cases as with
    | nil => exact .last (h a List.mem_cons_self _ _ (.inr rfl))
    | cons a' as =>
      rw [List.map_cons, List.map_cons, commaTokens, List.append_assoc, List.cons_append]
      refine .more (h a List.mem_cons_self _ _ (.inl rfl)) ?_
      exact ih fun b hb => h b (List.mem_cons_of_mem a hb)

theorem tokensOfAll_eq_map (es : List Expr) : Expr.tokensOfAll es = es.map Expr.tokens := by
  induction es with
  | nil => rfl
  | cons e es ih => rw [Expr.tokensOfAll, ih, List.map_cons]

theorem spelled_call (name : String) {es : List Expr} (h : ∀ e ∈ es, Spelled e) :
    Spelled (.call name es) := by
  refine .of_primary rfl fun rest => ?_
  rw [Expr.tokens, tokensOfAll_eq_map, List.cons_append, List.cons_append, List.append_assoc]
  refine .call name (Parser.arguments_of_commaList (commaList_commaTokens ?_))
  rintro e he t r (rfl | rfl)
  · exact (h e he).1 _ (Parser.stops_cons rfl rfl r)
  · exact (h e he).1 _ (Parser.stops_cons rfl rfl r)

mutual

/-- An expression is read from its tokens. -/
theorem spelled : (e : Expr) → Spelled e
  | .binary op left right => spelled_binary op (spelled left) (spelled right)
  | .compare op left right => spelled_compare op (spelled left) (spelled right)
  | .unary op e => spelled_unary op (spelled e)
  | .not e => spelled_not (spelled e)
  | .literal value => .of_primary rfl fun _ => .literal value
  | .lookup name => .of_primary rfl fun _ => .lookup name
  | .index name i => by
    refine .of_primary rfl fun rest => ?_
    rw [Expr.tokens, List.cons_append, List.cons_append, List.append_assoc]
    exact .index name ((spelled i).1 _ (Parser.stops_cons rfl rfl rest))
  | .call name es => spelled_call name (spelled_of_mem es)

theorem spelled_of_mem : (es : List Expr) → ∀ e ∈ es, Spelled e
  | [] => fun _ h => absurd h List.not_mem_nil
  | e :: es => List.forall_mem_cons.2 ⟨spelled e, spelled_of_mem es⟩

end

/-- An expression is read from its tokens in front of what does not continue it. -/
theorem spells_tokens (e : Expr) (hrest : Stops rest) :
    Spells Longest (.expr .comparison e) (e.tokens ++ rest) rest :=
  (spelled e).1 rest hrest

theorem spells_tokens_semicolon (e : Expr) (rest : List Token) :
    Spells Longest (.expr .comparison e) (e.tokens ++ .semicolon :: rest) (.semicolon :: rest) :=
  spells_tokens e (Parser.stops_cons rfl rfl rest)

/-- A condition is read in front of a block. -/
theorem spells_tokens_braces (e : Expr) (ts rest : List Token) :
    Spells Longest (.expr .comparison e) (e.tokens ++ (braces ts ++ rest)) (braces ts ++ rest) :=
  spells_tokens e (Parser.stops_cons rfl rfl _)

theorem spells_braces {body : List Stmt}
    (h : ∀ rest, Spells Longest (.statements body) (Stmt.tokensOfAll body ++ rest) rest)
    (rest : List Token) :
    Spells Longest (.block body) (braces (Stmt.tokensOfAll body) ++ rest) rest := by
  rw [braces, List.cons_append, List.append_assoc]
  exact .block (h _)

mutual

/-- A statement is read from its tokens. -/
theorem spells_statement : (s : Stmt) → (rest : List Token) →
    Spells Longest (.statement [s]) (s.tokens ++ rest) rest
  | .declare b none, rest => by
    rw [Stmt.tokens, List.append_assoc]
    exact .simple (.declare b)
  | .declare b (some e), rest => by
    rw [Stmt.tokens, List.append_assoc, List.cons_append, List.append_assoc]
    exact .simple (.initialise b (spells_tokens_semicolon e rest))
  | .assign name e, rest => by
    rw [Stmt.tokens, List.cons_append, List.cons_append, List.append_assoc]
    exact .simple (.assign name (spells_tokens_semicolon e rest))
  | .assignIndexed name i e, rest => by
    rw [Stmt.tokens, List.cons_append, List.cons_append, List.append_assoc, List.cons_append,
      List.cons_append, List.append_assoc]
    exact .simple (.assignIndexed name (spells_tokens i (Parser.stops_cons rfl rfl _))
      (spells_tokens_semicolon e rest))
  | .increment name, _ => .simple (.increment name)
  | .decrement name, _ => .simple (.decrement name)
  | .return_ none, _ => .returnNothing
  | .return_ (some e), rest => by
    rw [Stmt.tokens, List.cons_append, List.append_assoc]
    exact .returnValue (spells_tokens_semicolon e rest)
  | .ifThen e body, rest => by
    rw [Stmt.tokens, List.cons_append, List.append_assoc]
    exact .conditional (.ifThen (spells_tokens_braces e _ rest)
      (spells_braces (spells_statements body) rest))
  | .ifElse e body otherwise, rest => by
    rw [Stmt.tokens, List.cons_append, List.append_assoc, List.append_assoc, List.cons_append]
    exact .conditional (.ifElse (spells_tokens_braces e _ _)
      (spells_braces (spells_statements body) _) (spells_braces (spells_statements otherwise) rest))
  | .while_ e body, rest => by
    rw [Stmt.tokens, List.cons_append, List.append_assoc]
    exact .while_ (spells_tokens_braces e _ rest) (spells_braces (spells_statements body) rest)
  | .doWhile body e, rest => by
    rw [Stmt.tokens, List.cons_append, List.append_assoc, List.cons_append, List.append_assoc]
    exact .doWhile (spells_braces (spells_statements body) _) (spells_tokens_semicolon e rest)
  | .loop body, rest => .loop (spells_braces (spells_statements body) rest)
  | .expr e, rest => by
    rw [Stmt.tokens, List.append_assoc]
    exact .simple (.expr (spells_tokens_semicolon e rest))

theorem spells_statements : (ss : List Stmt) → (rest : List Token) →
    Spells Longest (.statements ss) (Stmt.tokensOfAll ss ++ rest) rest
  | [], _ => .noStatements
  | s :: ss, rest => by
    rw [Stmt.tokensOfAll, List.append_assoc]
    exact .someStatements (spells_statement s _) (spells_statements ss rest)

end

/-! ### Definitions -/

theorem CommaList.map {α β : Type} {E : β → List Token → List Token → Prop} {g : α → β}
    {as : List α} {ts : List Token} (h : CommaList (fun a => E (g a)) as ts rest) :
    CommaList E (as.map g) ts rest := by
  induction h with
  | nil => exact .nil
  | last h => exact .last h
  | more h _ ih => exact .more h ih

/-- The attribute that a name stands for. -/
def named (name : String) : Attributes :=
  (Attributes.ofName? name).getD {}

theorem ofName?_of_mem_names {a : Attributes} :
    ∀ name ∈ a.names, Attributes.ofName? name = some (named name) := by
  obtain ⟨assembly, noreturn, global, keep⟩ := a
  cases assembly <;> cases noreturn <;> cases global <;> cases keep <;> decide

theorem foldl_names (a : Attributes) : (a.names.map named).foldl .union {} = a := by
  obtain ⟨assembly, noreturn, global, keep⟩ := a
  cases assembly <;> cases noreturn <;> cases global <;> cases keep <;> decide

theorem spellsAttributes_tokens (a : Attributes) (rest : List Token) :
    SpellsAttributes a (a.tokens ++ rest) rest := by
  rw [Attributes.tokens]
  split
  · next hnames =>
    have ha := foldl_names a
    rw [hnames] at ha
    rw [← ha]
    exact .none
  · rw [List.cons_append, List.append_assoc]
    have hlist : CommaList (fun name => SpellsAttribute (named name)) a.names
        (commaTokens (a.names.map fun name => [.id name]) ++ .closeParen :: rest)
        (.closeParen :: rest) :=
      commaList_commaTokens fun name hname t r _ => ⟨name, ofName?_of_mem_names name hname, rfl⟩
    have hspells := SpellsAttributes.list hlist.map
    rwa [foldl_names a] at hspells

theorem spellsBody_tokens (f : FunctionDef) (hf : f.attributes.assembly = true ↔ f.IsAssembly)
    (rest : List Token) :
    SpellsBody Longest f.attributes f.body (f.body.tokens ++ rest) rest := by
  cases hbody : f.body with
  | assembly text => exact .assembly text (hf.2 ⟨text, hbody⟩)
  | statements body =>
    have hassembly : f.attributes.assembly = false := by
      refine Bool.eq_false_iff.2 fun h => ?_
      obtain ⟨text, htext⟩ := hf.1 h
      rw [hbody] at htext
      cases htext
    exact .statements hassembly (spells_braces (spells_statements body) rest)

/-- A definition is read from its tokens. -/
theorem spellsItem_tokens {item : Item}
    (hitem : ∀ f, item = .function f → (f.attributes.assembly = true ↔ f.IsAssembly))
    (rest : List Token) : SpellsItem Longest item (item.tokens ++ rest) rest := by
  cases item with
  | global g =>
    obtain ⟨b, init⟩ := g
    cases init with
    | none =>
      rw [Item.tokens, List.append_assoc]
      exact .global b
    | some value =>
      rw [Item.tokens, List.append_assoc]
      exact .initialised b (.literal value)
  | function f =>
    rw [Item.tokens, List.cons_append, List.append_assoc, List.cons_append, List.cons_append,
      List.append_assoc, List.cons_append, List.cons_append, List.append_assoc]
    exact .function f.name f.returns (spellsAttributes_tokens f.attributes _)
      (commaList_commaTokens fun b _ t r _ => rfl) (spellsBody_tokens f (hitem f rfl) rest)

/-- What is written is a program. -/
theorem spellsProgram_tokens {p : Program}
    (hp : ∀ f, .function f ∈ p.items → (f.attributes.assembly = true ↔ f.IsAssembly)) :
    SpellsProgram Longest p p.tokens := by
  obtain ⟨items⟩ := p
  change SpellsItems Longest items (items.flatMap Item.tokens)
  induction items with
  | nil => exact .nil
  | cons item items ih =>
    rw [List.flatMap_cons]
    refine .cons (spellsItem_tokens (fun f hf => hp f ?_) _) (ih fun f hf => hp f ?_)
    · rw [hf]
      exact List.mem_cons_self
    · exact List.mem_cons_of_mem item hf

end Grammar

/-! ### Reading undoes writing -/

/-- A program is read from its tokens, wherever they stand, if its functions have a body for the
target machine exactly where they say so. -/
theorem parse_tokens (p : Program)
    (hp : ∀ f, .function f ∈ p.items → (f.attributes.assembly = true ↔ f.IsAssembly))
    (tokens : List (Located Token)) (htokens : tokens.map Located.value = p.tokens) :
    parse tokens = .ok p := by
  refine parse_of_spells ?_
  rw [htokens]
  exact spellsProgram_tokens hp

/-- A program with a global variable, a function for the target machine and one with statements. -/
def specimen : Program where
  items := [
    .global ⟨⟨"limit", .int⟩, some (.number (-3))⟩,
    .function ⟨"stop", { assembly := true, keep := true }, [], .int, .assembly "@halt"⟩,
    .function ⟨"main", {}, [⟨"n", .int⟩], .int, .statements [
      .ifElse (.compare .less (.not (.binary .add (.lookup "n") (.lookup "limit"))) (.lookup "n"))
        [.decrement "n"] [.expr (.call "stop" []), .return_ (some (.unary .minus (.lookup "n")))]]⟩]

theorem parse_tokens_specimen :
    (∀ f, .function f ∈ specimen.items → (f.attributes.assembly = true ↔ f.IsAssembly)) ∧
      parse (specimen.tokens.map (⟨7, ·⟩)) = .ok specimen := by
  have hp : ∀ f, .function f ∈ specimen.items → (f.attributes.assembly = true ↔ f.IsAssembly) := by
    intro f hf
    simp only [specimen, List.mem_cons, List.not_mem_nil, or_false, reduceCtorEq, false_or,
      Item.function.injEq] at hf
    rcases hf with rfl | rfl
    · exact ⟨fun _ => ⟨_, rfl⟩, fun _ => rfl⟩
    · simp [FunctionDef.IsAssembly]
  refine ⟨hp, parse_tokens specimen hp _ ?_⟩
  rw [List.map_map]
  exact List.map_id _

end Firestorm
