import Firestorm.Text.Line

/-!
# Outlines

The form in which dumps show structured values: a value that has parts is spread over several lines,
each part on lines of its own, indented and closed by a comma.

## Main definitions

* `Outline`, `Outline.render`.
-/

namespace Firestorm

/-- A value to be shown: an atom, a record of named fields, a variant with its parts, or a list. -/
inductive Outline
  | atom (text : String)
  | record (name : String) (fields : List (String × Outline))
  | variant (name : String) (parts : List Outline)
  | list (items : List Outline)

namespace Outline

/-- Lines with a comma behind the last one. -/
def closed : List String → List String
  | [] => []
  | [line] => [line ++ ","]
  | line :: rest => line :: closed rest

/-- Lines with a label in front of the first one. -/
def labelled (label : String) : List String → List String
  | [] => []
  | line :: rest => (label ++ line) :: rest

/-- The lines of a part: indented, with a label in front and a comma behind. -/
def part (label : String) (lines : List String) : List String :=
  (closed (labelled label lines)).map (Text.spaces 4 ++ ·)

mutual

/-- The lines of a value. -/
def lines : Outline → List String
  | atom text => [text]
  | record name fields => [name ++ " \x7b"] ++ fieldLines fields ++ ["\x7d"]
  | variant name parts => [name ++ "("] ++ partLines parts ++ [")"]
  | list [] => ["[]"]
  | list items => ["["] ++ partLines items ++ ["]"]

/-- The lines of named fields. -/
def fieldLines : List (String × Outline) → List String
  | [] => []
  | (name, value) :: rest => part (name ++ ": ") value.lines ++ fieldLines rest

/-- The lines of parts without names. -/
def partLines : List Outline → List String
  | [] => []
  | value :: rest => part "" value.lines ++ partLines rest

end

/-- The text of a value. -/
def render (o : Outline) : String :=
  String.join (o.lines.map (· ++ "\n"))

end Outline

end Firestorm
