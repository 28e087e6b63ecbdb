import Firestorm.Program
import Firestorm.Token

/-!
# The grammar of programs

The grammar is a relation between a phrase with its tree, a list of tokens, and what stands behind
the phrase in that list. Expressions are layered: comparisons, sums, products, bitwise operators,
each associated to the left, then operators in front of an operand, then primary expressions.

Logical negation takes a whole comparison, also where it is the operand of an operator that binds
tighter, so that `!a + b` has two trees. The relation has a condition on the operands of negation as
its parameter. Without a condition it is the grammar as it is written down; with `Longest` a
negation extends as far as it can.

## Main definitions

* `BinaryOp.token`, `CompareOp.token`, `UnaryOp.token`, `Literal.token`, `Datatype.tokens`,
  `Grammar.Level`, `Grammar.Phrase`, `Grammar.Spells`, `Grammar.Longest`, `Grammar.SpellsItem`,
  `Grammar.SpellsProgram`.

## Main results

* `Grammar.Spells.mono`, `Grammar.Spells.of_primary`, `Grammar.Spells.comparison`.
* `Grammar.Spells.length_add_least_le`: a phrase takes tokens.
-/

namespace Firestorm

/-- The token of an arithmetic operator. -/
def BinaryOp.token : BinaryOp → Token
  | add => .plus
  | sub => .minus
  | mul => .times
  | div => .divide
  | mod => .modulo
  | and => .bitAnd
  | or => .bitOr
  | xor => .bitXor
  | shiftLeft => .shiftLeft
  | shiftRight => .shiftRight

/-- The token of a comparison. -/
def CompareOp.token : CompareOp → Token
  | equals => .equals
  | notEquals => .notEquals
  | less => .less
  | lessEquals => .lessEquals
  | greater => .greater
  | greaterEquals => .greaterEquals

/-- The token of an operator of one operand. -/
def UnaryOp.token : UnaryOp → Token
  | plus => .plus
  | minus => .minus
  | bitNot => .bitNot

/-- The token of a constant. -/
def Literal.token : Literal → Token
  | number value => .int value
  | str content => .str content
  | chr byte => .chr byte

/-- The token of a kind. -/
def Kind.token : Kind → Token
  | int => .keyword .int
  | str => .keyword .str
  | chr => .keyword .chr

/-- The tokens of a datatype. -/
def Datatype.tokens (d : Datatype) : List Token :=
  if d.array then [d.kind.token, .openSquare, .closeSquare] else [d.kind.token]

/-- The tokens of a name with its datatype. -/
def Binding.tokens (b : Binding) : List Token :=
  b.datatype.tokens ++ [.id b.name]

namespace Grammar

/-- The layers of expressions, the loosest first. -/
inductive Level
  | comparison
  | sum
  | product
  | bitwise
  | unary
  | primary
deriving DecidableEq

/-- The layer that the operands of a layer belong to. -/
def Level.tighter : Level → Level
  | comparison => sum
  | sum => product
  | product => bitwise
  | bitwise => unary
  | unary | primary => primary

/-- The layer of an arithmetic operator. -/
def level : BinaryOp → Level
  | .add | .sub => .sum
  | .mul | .div | .mod => .product
  | .and | .or | .xor | .shiftLeft | .shiftRight => .bitwise

/-- A kind of phrase, with the tree of a phrase of that kind. A statement may stand for several. -/
inductive Phrase
  | expr (level : Level) (tree : Expr)
  | arguments (trees : List Expr)
  | simple (tree : Stmt)
  | conditional (tree : Stmt)
  | statement (trees : List Stmt)
  | statements (trees : List Stmt)
  | block (trees : List Stmt)

/-- The tokens start with a phrase, and the last list is what stands behind it. An operand of
negation has to satisfy the condition on where it starts and on what stands behind it. -/
inductive Spells (negates : List Token → List Token → Prop) :
    Phrase → List Token → List Token → Prop
  -- expressions
  | tighter {level e ts rest} : Spells negates (.expr (Level.tighter level) e) ts rest →
      Spells negates (.expr level e) ts rest
  | compare (op : CompareOp) {e e' ts mid rest} :
      Spells negates (.expr .comparison e) ts (op.token :: mid) →
      Spells negates (.expr .sum e') mid rest →
      Spells negates (.expr .comparison (.compare op e e')) ts rest
  | binary (op : BinaryOp) {e e' ts mid rest} :
      Spells negates (.expr (level op) e) ts (op.token :: mid) →
      Spells negates (.expr (level op).tighter e') mid rest →
      Spells negates (.expr (level op) (.binary op e e')) ts rest
  | not {e ts rest} : negates ts rest → Spells negates (.expr .comparison e) ts rest →
      Spells negates (.expr .unary (.not e)) (.not :: ts) rest
  | unary (op : UnaryOp) {e ts rest} : Spells negates (.expr .unary e) ts rest →
      Spells negates (.expr .unary (.unary op e)) (op.token :: ts) rest
  | literal (value : Literal) {rest} :
      Spells negates (.expr .primary (.literal value)) (value.token :: rest) rest
  | parenthesised {e ts rest} : Spells negates (.expr .comparison e) ts (.closeParen :: rest) →
      Spells negates (.expr .primary e) (.openParen :: ts) rest
  | lookup (name : String) {rest} :
      Spells negates (.expr .primary (.lookup name)) (.id name :: rest) rest
  | index (name : String) {e ts rest} :
      Spells negates (.expr .comparison e) ts (.closeSquare :: rest) →
      Spells negates (.expr .primary (.index name e)) (.id name :: .openSquare :: ts) rest
  | call (name : String) {es ts rest} : Spells negates (.arguments es) ts (.closeParen :: rest) →
      Spells negates (.expr .primary (.call name es)) (.id name :: .openParen :: ts) rest
  -- arguments of calls
  | noArguments {rest} : Spells negates (.arguments []) rest rest
  | lastArgument {e ts rest} : Spells negates (.expr .comparison e) ts rest →
      Spells negates (.arguments [e]) ts rest
  | moreArguments {e e' es ts mid rest} : Spells negates (.expr .comparison e) ts (.comma :: mid) →
      Spells negates (.arguments (e' :: es)) mid rest →
      Spells negates (.arguments (e :: e' :: es)) ts rest
  -- statements without a semicolon
  | declare (b : Binding) {rest} :
    Spells negates (.simple (.declare b none)) (b.tokens ++ rest) rest
  | initialise (b : Binding) {e ts rest} : Spells negates (.expr .comparison e) ts rest →
      Spells negates (.simple (.declare b (some e))) (b.tokens ++ .assign :: ts) rest
  | assign (name : String) {e ts rest} : Spells negates (.expr .comparison e) ts rest →
      Spells negates (.simple (.assign name e)) (.id name :: .assign :: ts) rest
  | assignIndexed (name : String) {i e ts mid rest} :
      Spells negates (.expr .comparison i) ts (.closeSquare :: .assign :: mid) →
      Spells negates (.expr .comparison e) mid rest →
      Spells negates (.simple (.assignIndexed name i e)) (.id name :: .openSquare :: ts) rest
  | increment (name : String) {rest} :
      Spells negates (.simple (.increment name)) (.id name :: .increment :: rest) rest
  | decrement (name : String) {rest} :
      Spells negates (.simple (.decrement name)) (.id name :: .decrement :: rest) rest
  | expr {e ts rest} : Spells negates (.expr .comparison e) ts rest →
      Spells negates (.simple (.expr e)) ts rest
  -- statements
  | ifThen {e body ts mid rest} : Spells negates (.expr .comparison e) ts mid →
      Spells negates (.block body) mid rest →
      Spells negates (.conditional (.ifThen e body)) (.keyword .if_ :: ts) rest
  | ifElse {e body otherwise ts mid mid' rest} : Spells negates (.expr .comparison e) ts mid →
      Spells negates (.block body) mid (.keyword .else_ :: mid') →
      Spells negates (.block otherwise) mid' rest →
      Spells negates (.conditional (.ifElse e body otherwise)) (.keyword .if_ :: ts) rest
  | elseIf {e body otherwise ts mid mid' rest} : Spells negates (.expr .comparison e) ts mid →
      Spells negates (.block body) mid (.keyword .else_ :: mid') →
      Spells negates (.conditional otherwise) mid' rest →
      Spells negates (.conditional (.ifElse e body [otherwise])) (.keyword .if_ :: ts) rest
  | simple {s ts rest} : Spells negates (.simple s) ts (.semicolon :: rest) →
      Spells negates (.statement [s]) ts rest
  | conditional {s ts rest} : Spells negates (.conditional s) ts rest →
      Spells negates (.statement [s]) ts rest
  | returnNothing {rest} :
      Spells negates (.statement [.return_ none]) (.keyword .return_ :: .semicolon :: rest) rest
  | returnValue {e ts rest} : Spells negates (.expr .comparison e) ts (.semicolon :: rest) →
      Spells negates (.statement [.return_ (some e)]) (.keyword .return_ :: ts) rest
  | while_ {e body ts mid rest} : Spells negates (.expr .comparison e) ts mid →
      Spells negates (.block body) mid rest →
      Spells negates (.statement [.while_ e body]) (.keyword .while_ :: ts) rest
  | doWhile {e body ts mid rest} : Spells negates (.block body) ts (.keyword .while_ :: mid) →
      Spells negates (.expr .comparison e) mid (.semicolon :: rest) →
      Spells negates (.statement [.doWhile body e]) (.keyword .do_ :: ts) rest
  | loop {body ts rest} : Spells negates (.block body) ts rest →
      Spells negates (.statement [.loop body]) (.keyword .loop :: ts) rest
  | for_ {init e update body ts mid mid' mid'' rest} :
      Spells negates (.simple init) ts (.semicolon :: mid) →
      Spells negates (.expr .comparison e) mid (.semicolon :: mid') →
      Spells negates (.simple update) mid' (.closeParen :: mid'') →
      Spells negates (.block body) mid'' rest →
      Spells negates (.statement [init, .while_ e (body ++ [update])])
        (.keyword .for_ :: .openParen :: ts) rest
  -- blocks
  | noStatements {rest} : Spells negates (.statements []) rest rest
  | someStatements {first others ts mid rest} : Spells negates (.statement first) ts mid →
      Spells negates (.statements others) mid rest →
      Spells negates (.statements (first ++ others)) ts rest
  | block {body ts rest} : Spells negates (.statements body) ts (.closeCurly :: rest) →
      Spells negates (.block body) (.openCurly :: ts) rest

/-- No condition on the operands of negation. -/
def Any (_ _ : List Token) : Prop := True

/-- Of all comparisons that start with the first list, none is longer than the one in front of the
second. -/
def Longest (ts rest : List Token) : Prop :=
  ∀ e rest', Spells Any (.expr .comparison e) ts rest' → rest.length ≤ rest'.length

/-! ### Definitions -/

/-- Elements between commas, of which there may be none. -/
inductive CommaList {α : Type} (element : α → List Token → List Token → Prop) :
    List α → List Token → List Token → Prop
  | nil {rest} : CommaList element [] rest rest
  | last {a ts rest} : element a ts rest → CommaList element [a] ts rest
  | more {a a' as ts mid rest} : element a ts (.comma :: mid) →
      CommaList element (a' :: as) mid rest → CommaList element (a :: a' :: as) ts rest

/-- An attribute by its name. -/
def SpellsAttribute (a : Attributes) (ts rest : List Token) : Prop :=
  ∃ name, Attributes.ofName? name = some a ∧ ts = .id name :: rest

/-- The attributes in the header of a function: none, or a list between parentheses. -/
inductive SpellsAttributes : Attributes → List Token → List Token → Prop
  | none {rest} : SpellsAttributes {} rest rest
  | list {as ts rest} : CommaList SpellsAttribute as ts (.closeParen :: rest) →
      SpellsAttributes (as.foldl .union {}) (.openParen :: ts) rest

/-- A parameter of a function. -/
def SpellsParameter (b : Binding) (ts rest : List Token) : Prop :=
  ts = b.tokens ++ rest

/-- The constant that a global variable starts with. A number may have a minus in front of it. -/
inductive SpellsInitial : Literal → List Token → List Token → Prop
  | literal (value : Literal) {rest} : SpellsInitial value (value.token :: rest) rest
  | negative (value : Word) {rest} :
    SpellsInitial (.number (-value)) (.minus :: .int value :: rest) rest

/-- The body of a function: text for the target machine if its header says so, or else a block. -/
inductive SpellsBody (negates : List Token → List Token → Prop) :
    Attributes → Body → List Token → List Token → Prop
  | assembly {a : Attributes} (text : String) {rest} : a.assembly = true →
      SpellsBody negates a (.assembly text) (.openCurly :: .str text :: .closeCurly :: rest) rest
  | statements {a : Attributes} {body ts rest} : a.assembly = false →
      Spells negates (.block body) ts rest → SpellsBody negates a (.statements body) ts rest

/-- A definition. -/
inductive SpellsItem (negates : List Token → List Token → Prop) :
    Item → List Token → List Token → Prop
  | global (b : Binding) {rest} :
      SpellsItem negates (.global ⟨b, none⟩) (b.tokens ++ .semicolon :: rest) rest
  | initialised (b : Binding) {value ts rest} : SpellsInitial value ts (.semicolon :: rest) →
      SpellsItem negates (.global ⟨b, some value⟩) (b.tokens ++ .assign :: ts) rest
  | function (name : String) (returns : Datatype) {attributes parameters body ts mid mid' rest} :
      SpellsAttributes attributes ts (.id name :: .openParen :: mid) →
      CommaList SpellsParameter parameters mid (.closeParen :: .arrow :: (returns.tokens ++ mid')) →
      SpellsBody negates attributes body mid' rest →
      SpellsItem negates (.function ⟨name, attributes, parameters, returns, body⟩)
        (.keyword .function :: ts) rest

/-- The tokens are those of definitions, with nothing behind them. -/
inductive SpellsItems (negates : List Token → List Token → Prop) : List Item → List Token → Prop
  | nil : SpellsItems negates [] []
  | cons {item items ts rest} : SpellsItem negates item ts rest → SpellsItems negates items rest →
      SpellsItems negates (item :: items) ts

/-- The tokens are those of a program. -/
def SpellsProgram (negates : List Token → List Token → Prop) (p : Program)
    (ts : List Token) : Prop :=
  SpellsItems negates p.items ts

/-! ### First facts -/

section

variable {negates negates' : List Token → List Token → Prop} {ph : Phrase} {ts rest : List Token}

/-- A weaker condition on negations keeps every derivation. -/
theorem Spells.mono (hnegates : ∀ ts rest, negates ts rest → negates' ts rest)
    (h : Spells negates ph ts rest) : Spells negates' ph ts rest := by
  induction h with
  | not hrest _ ih => exact .not (hnegates _ _ hrest) ih
  | tighter _ ih => exact .tighter ih
  | compare op _ _ ih ih' => exact .compare op ih ih'
  | binary op _ _ ih ih' => exact .binary op ih ih'
  | unary op _ ih => exact .unary op ih
  | literal value => exact .literal value
  | parenthesised _ ih => exact .parenthesised ih
  | lookup name => exact .lookup name
  | index name _ ih => exact .index name ih
  | call name _ ih => exact .call name ih
  | noArguments => exact .noArguments
  | lastArgument _ ih => exact .lastArgument ih
  | moreArguments _ _ ih ih' => exact .moreArguments ih ih'
  | declare b => exact .declare b
  | initialise b _ ih => exact .initialise b ih
  | assign name _ ih => exact .assign name ih
  | assignIndexed name _ _ ih ih' => exact .assignIndexed name ih ih'
  | increment name => exact .increment name
  | decrement name => exact .decrement name
  | expr _ ih => exact .expr ih
  | ifThen _ _ ih ih' => exact .ifThen ih ih'
  | ifElse _ _ _ ih ih' ih'' => exact .ifElse ih ih' ih''
  | elseIf _ _ _ ih ih' ih'' => exact .elseIf ih ih' ih''
  | simple _ ih => exact .simple ih
  | conditional _ ih => exact .conditional ih
  | returnNothing => exact .returnNothing
  | returnValue _ ih => exact .returnValue ih
  | while_ _ _ ih ih' => exact .while_ ih ih'
  | doWhile _ _ ih ih' => exact .doWhile ih ih'
  | loop _ ih => exact .loop ih
  | for_ _ _ _ _ ih ih' ih'' ih''' => exact .for_ ih ih' ih'' ih'''
  | noStatements => exact .noStatements
  | someStatements _ _ ih ih' => exact .someStatements ih ih'
  | block _ ih => exact .block ih

/-- The condition on negations may always be dropped. -/
theorem Spells.any (h : Spells negates ph ts rest) : Spells Any ph ts rest :=
  h.mono fun _ _ _ => trivial

/-- A primary expression belongs to every layer. -/
theorem Spells.of_primary {e : Expr} (h : Spells negates (.expr .primary e) ts rest) (l : Level) :
    Spells negates (.expr l e) ts rest := by
  have hunary : Spells negates (.expr .unary e) ts rest := .tighter h
  have hbitwise : Spells negates (.expr .bitwise e) ts rest := .tighter hunary
  have hproduct : Spells negates (.expr .product e) ts rest := .tighter hbitwise
  have hsum : Spells negates (.expr .sum e) ts rest := .tighter hproduct
  cases l with
  | comparison => exact .tighter hsum
  | sum => exact hsum
  | product => exact hproduct
  | bitwise => exact hbitwise
  | unary => exact hunary
  | primary => exact h

/-- An expression of any layer is a comparison. -/
theorem Spells.comparison {l : Level} {e : Expr} (h : Spells negates (.expr l e) ts rest) :
    Spells negates (.expr .comparison e) ts rest := by
  have hsum : Spells negates (.expr .sum e) ts rest →
      Spells negates (.expr .comparison e) ts rest :=
    fun h => .tighter h
  have hproduct : Spells negates (.expr .product e) ts rest → _ := fun h => hsum (.tighter h)
  have hbitwise : Spells negates (.expr .bitwise e) ts rest → _ := fun h => hproduct (.tighter h)
  cases l with
  | comparison => exact h
  | sum => exact hsum h
  | product => exact hproduct h
  | bitwise => exact hbitwise h
  | unary => exact hbitwise (.tighter h)
  | primary => exact h.of_primary .comparison

/-- The least number of tokens of a phrase. -/
def Phrase.least : Phrase → Nat
  | .arguments _ | .statements _ => 0
  | _ => 1

theorem Spells.length_add_least_le (h : Spells negates ph ts rest) :
    rest.length + ph.least ≤ ts.length := by
  induction h <;> simp_all [Phrase.least, Binding.tokens] <;> omega

end

end Grammar

end Firestorm
