/-!
# Datatypes

A variable holds an integer, a string or a character, or an array of one of these. Arrays and
strings are pointers, so that only a scalar character is smaller than a word.

## Main definitions

* `Kind`, `Datatype`, `Datatype.size`, `Datatype.elementSize`, `Binding`.
-/

namespace Firestorm

/-- The kinds of scalar. -/
inductive Kind
  | int
  | str
  | chr
deriving Repr, DecidableEq, Inhabited

/-- The text of a kind. -/
def Kind.spelling : Kind → String
  | int => "int"
  | str => "str"
  | chr => "chr"

/-- A scalar of some kind, or an array of such scalars. -/
structure Datatype where
  kind : Kind
  array : Bool
deriving Repr, DecidableEq, Inhabited

namespace Datatype

/-- The scalar of a kind. -/
def scalar (kind : Kind) : Datatype := ⟨kind, false⟩

/-- The array of a kind. -/
def arrayOf (kind : Kind) : Datatype := ⟨kind, true⟩

/-- The scalar integer. -/
def int : Datatype := scalar .int

/-- The scalar string. -/
def str : Datatype := scalar .str

/-- The scalar character. -/
def chr : Datatype := scalar .chr

/-- The text of a datatype. -/
def spelling (d : Datatype) : String :=
  if d.array then d.kind.spelling ++ "[]" else d.kind.spelling

/-- The datatype of an element, if this one is indexed as an array. -/
def element (d : Datatype) : Datatype := scalar d.kind

/-- The bytes that a variable takes: one for a scalar character, else a word. -/
def size (d : Datatype) : Nat :=
  match d with
  | ⟨.chr, false⟩ => 1
  | _ => 8

/-- The bytes that an element takes, if this datatype is indexed as an array. -/
def elementSize (d : Datatype) : Nat := d.element.size

end Datatype

/-- A name with its datatype: a parameter, a local or a global. -/
structure Binding where
  name : String
  datatype : Datatype
deriving Repr, DecidableEq, Inhabited

end Firestorm
