/-!
# Paths

A path is a text whose components are divided by slashes. A path that starts with a slash does not
depend on the directory it is seen from. Empty components and single dots mean nothing, except that
a slash at the end asks for a directory.

## Main definitions

* `Path.pieces`, `Path.fileName?`, `Path.extension?`, `Path.join`, `Path.sibling`.
-/

namespace Firestorm.Path

/-- The texts between the slashes of a path. -/
def piecesOf : List Char → List (List Char)
  | [] => [[]]
  | c :: cs =>
    if c = '/' then [] :: piecesOf cs
    else
      match piecesOf cs with
      | [] => [[c]]
      | piece :: rest => (c :: piece) :: rest

/-- The texts between the slashes of a path. -/
def pieces (path : String) : List String :=
  (piecesOf path.toList).map String.ofList

/-- Whether a path does not depend on the directory it is seen from. -/
def isAbsolute (path : String) : Bool :=
  path.toList.head? == some '/'

/-- Whether a component means nothing. -/
def isIdle (piece : String) : Bool :=
  piece == "" || piece == "."

/-- The name at the end of a path. There is none if the path ends by going up. -/
def fileName? (path : String) : Option String :=
  match (pieces path).reverse.dropWhile isIdle with
  | [] => none
  | name :: _ => if name == ".." then none else some name

/-- The part of a name behind its last dot, unless that dot is the first character. -/
def extension? (path : String) : Option String := do
  let name ← fileName? path
  let reversed := name.toList.reverse
  let ext := reversed.takeWhile (· != '.')
  match reversed.dropWhile (· != '.') with
  | [] | [_] => none
  | _ => some (String.ofList ext.reverse)

/-- A path seen from a directory. -/
def join (directory path : String) : String :=
  if isAbsolute path then path
  else if directory.isEmpty || directory.toList.getLast? == some '/' then directory ++ path
  else directory ++ "/" ++ path

/-- A path with a suffix, behind a dot. -/
def sibling (path suffix : String) : String :=
  path ++ "." ++ suffix

end Firestorm.Path
