/-!
# Lines of a text

A newline ends a line, and a carriage return right before it belongs to the line's end, not to the
line. A last line without a newline counts only when it holds a character.

## Main definitions

* `Text.pieces`, `Text.lines`, `Text.behind?`, `Text.spaces`.
-/

namespace Firestorm.Text

/-- The rest of a text that begins with `start`. -/
def behind? : (start text : List Char) → Option (List Char)
  | [], text => some text
  | _ :: _, [] => none
  | s :: start, c :: text => if s = c then behind? start text else none

/-- A row of `n` spaces. -/
def spaces (n : Nat) : String :=
  String.ofList (List.replicate n ' ')

/-- The texts between the newlines; a text with `n` newlines has `n + 1` pieces. -/
def pieces : List Char → List (List Char)
  | [] => [[]]
  | c :: cs =>
    if c = '\n' then [] :: pieces cs
    else
      match pieces cs with
      | [] => [[c]]
      | piece :: rest => (c :: piece) :: rest

/-- A text without one carriage return at its end. -/
def dropReturn (cs : List Char) : List Char :=
  if cs.getLast? = some '\r' then cs.dropLast else cs

/-- The lines of a text, without the newlines and the carriage returns that end them. -/
def lines (cs : List Char) : List (List Char) :=
  let ps := pieces cs
  let last := ps.getLast?.getD []
  ps.dropLast.map dropReturn ++ if last.isEmpty then [] else [last]

end Firestorm.Text
