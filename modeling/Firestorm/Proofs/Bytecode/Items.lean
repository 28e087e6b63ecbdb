import Firestorm.Bytecode.Encode
import Firestorm.Bytecode.Instruction
import Firestorm.Proofs.Symbols.Tables

/-!
# The items of sections

The items of a line depend on the names declared before it: a local variable has a number in its
section, any other variable is a reference to a global, and globals are numbered through all
sections. This file gives the items of lines, of code and of sections as functions of these names.

## Main definitions

* `Bytecode.numbering`, `Bytecode.Naming`, `Bytecode.Naming.lineItems`, `Bytecode.Naming.codeItems`,
  `Bytecode.sectionItems`, `Bytecode.sectionsItems`.
-/

namespace Firestorm.Bytecode

/-! ### Numbered names -/

/-- The table in which names are numbered from `base` on. -/
def numbering (base : Nat) (names : List String) : Table Nat :=
  ⟨names.zipIdx.map fun entry => (entry.1, base + entry.2)⟩

@[simp] theorem names_numbering (base : Nat) (names : List String) :
    (numbering base names).names = names := by
  simp only [Table.names, numbering, List.map_map]
  exact List.zipIdx_map_fst ..

theorem get?_numbering (base : Nat) (names : List String) (name : String) :
    (numbering base names).get? name =
      if name ∈ names then some (base + names.idxOf name) else none := by
  suffices h : ∀ k, ((names.zipIdx k).map fun entry => (entry.1, base + entry.2)).lookup name =
      if name ∈ names then some (base + (k + names.idxOf name)) else none by
    simpa [numbering, Table.get?] using h 0
  intro k
  induction names generalizing k with
  | nil => rfl
  | cons other names ih =>
    rw [List.zipIdx_cons, List.map_cons, List.lookup_cons]
    by_cases h : name = other
    · simp [h]
    · rw [beq_false_of_ne h, ih]
      by_cases hmem : name ∈ names
      · simp [hmem, List.idxOf_cons_ne _ (Ne.symm h)]
        omega
      · simp [hmem, h]

theorem set_numbering (base : Nat) {names : List String} {name : String} (h : name ∉ names) :
    (numbering base names).set name (base + names.length) = numbering base (names ++ [name]) := by
  suffices h : ∀ k, Table.update name (base + (k + names.length))
      ((names.zipIdx k).map fun entry => (entry.1, base + entry.2)) =
        ((names ++ [name]).zipIdx k).map fun entry => (entry.1, base + entry.2) by
    simpa [numbering, Table.set] using h 0
  intro k
  induction names generalizing k with
  | nil => rfl
  | cons other names ih =>
    obtain ⟨hne, hnames⟩ := not_or.1 (List.mem_cons.not.1 h)
    rw [List.zipIdx_cons, List.map_cons, Table.update, if_neg (by simpa using hne),
      List.cons_append, List.zipIdx_cons, List.map_cons, List.length_cons, ← ih hnames (k + 1)]
    congr 3
    omega

/-- The globals and the locals declared so far, in order. -/
structure Naming where
  globals : List String
  locals : List String

namespace Naming

/-- The encoder that knows these names. -/
def encoder (k : Naming) (current : Option String) : Encoder :=
  ⟨current, numbering localSlotBase k.locals, numbering 0 k.globals⟩

/-- The names declared behind a line. -/
def after (k : Naming) : CodeLine → Naming
  | .instruction (.global b) => { k with globals := insertName k.globals b.name }
  | .instruction (.variable_ b) => { k with locals := insertName k.locals b.name }
  | _ => k

/-- The items of the operands of an instruction. -/
def operandItems (k : Naming) (sectionName : String) : Instruction → List Item
  | .global b =>
    (if b.name ∈ k.globals then []
      else [.constant (globalSymbol b.name) k.globals.length.toUInt64]) ++
      declarationItems ((insertName k.globals b.name).idxOf b.name) b.datatype.kind b.datatype.array
  | .variable_ b =>
    declarationItems (localSlotBase + (insertName k.locals b.name).idxOf b.name) b.datatype.kind
      b.datatype.array
  | .access _ name =>
    [if name ∈ k.locals then .quad (Int64.ofNat (localSlotBase + k.locals.idxOf name))
      else .reference (globalSymbol name)]
  | .number value => [.quad value]
  | .string content =>
    [.quad (Int64.ofNat (Text.utf8 content.toList).length),
      .bytes (Text.utf8 content.toList ++ [0])]
  | .jump _ label => [.reference (sectionSymbol sectionName label)]
  | .invoke callee => [.reference callee]
  | .invokeNative callee => [.quad (Int64.ofNat (natives.idxOf callee))]
  | .plain _ => []

/-- The items of a line. -/
def lineItems (k : Naming) (sectionName : String) : CodeLine → List Item
  | .label name => [.label (labelSymbol sectionName name.toList)]
  | .instruction i => .byte i.opcode.byte :: k.operandItems sectionName i

/-- The items of code. -/
def codeItems (sectionName : String) : Naming → List CodeLine → List Item
  | _, [] => []
  | k, line :: code => k.lineItems sectionName line ++ codeItems sectionName (k.after line) code

/-- The names declared behind code. -/
def through (k : Naming) (code : List CodeLine) : Naming :=
  code.foldl after k

end Naming

/-- The items of a section behind the globals declared so far. -/
def sectionItems (globals : List String) (s : Section) : List Item :=
  .label s.name :: Naming.codeItems s.name ⟨globals, []⟩ s.code

/-- The globals declared behind a section. -/
def globalsThrough (globals : List String) (s : Section) : List String :=
  (Naming.through ⟨globals, []⟩ s.code).globals

/-- The items of sections behind the globals declared so far. -/
def sectionsItems : (globals : List String) → List Section → List Item
  | _, [] => []
  | globals, s :: rest => sectionItems globals s ++ sectionsItems (globalsThrough globals s) rest

end Firestorm.Bytecode
