import Firestorm.Text.Blank
import Firestorm.Text.Line
import Firestorm.Text.Utf8

/-!
# Source texts and positions in them

A source is a text with the name of the file it was read from. The text may hold other files, each
between a line that names it and a line that closes it. A byte offset is resolved to a position by
replaying these markers from the start of the text up to the line of the offset: the innermost file
still open gives the name, and lines are counted from behind its opening marker.

## Main definitions

* `Source`, `Source.Marker`, `Source.Scope`, `Source.resolve`, `Position.render`.
-/

namespace Firestorm

/-- A named text. -/
structure Source where
  name : String
  text : String
deriving Repr, DecidableEq, Inhabited

/-- A count of 32 bits stands for its number. -/
instance instCoeUInt32Nat : Coe UInt32 Nat := ⟨UInt32.toNat⟩

/-- A place in a file, with lines and columns counted from one and columns in bytes, and the line it
lies on. The counts have 32 bits: behind the largest one they start again at zero. -/
structure Position where
  file : String
  line : UInt32
  column : UInt32
  text : String
deriving Repr, DecidableEq, Inhabited

/-- A position as messages write it. -/
def Position.render (p : Position) : String :=
  s!"{p.file}:{p.line}:{p.column}"

namespace Source

/-- What opens the line in front of an included file. -/
def openMarker : String := "//@file "

/-- What opens the line behind an included file. -/
def closeMarker : String := "//@endfile"

/-- A line that opens or closes an included file. -/
inductive Marker
  | enter (file : String)
  | leave
deriving Repr, DecidableEq

/-- The marker that a line is, if it is one. -/
def Marker.ofLine? (line : List Char) : Option Marker :=
  match Text.behind? openMarker.toList line with
  | some file => some (.enter (String.ofList (Text.trimEnd file)))
  | none => (Text.behind? closeMarker.toList line).map fun _ => .leave

/-- An open file, and how many lines of the whole text stand in front of its first line. -/
structure Scope where
  file : String
  base : Nat
deriving Repr, DecidableEq

/-- The included files that are open behind a line, the innermost first. The line has the given
index. -/
def openedBehind (scopes : List Scope) (index : Nat) (line : List Char) : List Scope :=
  match Marker.ofLine? line with
  | some (.enter file) => ⟨file, index + 1⟩ :: scopes
  | some .leave => scopes.tail
  | none => scopes

/-- The included files that are open behind the given lines, of which the first has the given
index. -/
def opened (scopes : List Scope) : (index : Nat) → List (List Char) → List Scope
  | _, [] => scopes
  | index, line :: lines => opened (openedBehind scopes index line) (index + 1) lines

/-- The line that holds a byte offset: its index, the offset of its start, and its text. The first
piece starts at `start`, and an offset behind the last piece counts to it. -/
def lineAt (offset : Nat) : (start : Nat) → List (List Char) → Nat × Nat × List Char
  | start, [] => (0, start, [])
  | start, [piece] => (0, start, piece)
  | start, piece :: next :: rest =>
    let past := start + Text.byteSize piece + 1
    if offset < past then (0, start, piece)
    else
      let (index, lineStart, line) := lineAt offset past (next :: rest)
      (index + 1, lineStart, line)

/-- The position of a byte offset. Offsets behind the end of the text mean its end. -/
def resolve (source : Source) (offset : Nat) : Position :=
  let text := source.text.toList
  let pieces := Text.pieces text
  let offset := min offset (Text.byteSize text)
  let (index, start, line) := lineAt offset 0 pieces
  let scope := (opened [] 0 ((pieces.take index).map Text.dropReturn)).headD ⟨source.name, 0⟩
  { file := scope.file
    line := .ofNat (index - scope.base + 1)
    column := .ofNat (offset - start + 1)
    text := String.ofList line }

end Source

end Firestorm
