import Firestorm.Path
import Firestorm.Text.Utf8

/-!
# Files

A finite collection of files and directories around a working directory. A location is a list of
names that leads from the working directory, or from the root, to an entry. A path is followed
component by component: every component but the last must be a directory. The directories above the
working directory, and the root, exist.

## Main definitions

* `FileError`, `Files`, `Files.at?`, `Files.read`, `Files.write`, `decodeText`.
-/

namespace Firestorm

/-- Why a file cannot be read or written. -/
inductive FileError
  | notFound
  | notDirectory
  | isDirectory
  | nameTooLong
  | zeroInName
  | notText
  | other (reason : String)
deriving Repr, DecidableEq, Inhabited

/-- The wording of an error. -/
def FileError.message : FileError → String
  | notFound => "No such file or directory (os error 2)"
  | notDirectory => "Not a directory (os error 20)"
  | isDirectory => "Is a directory (os error 21)"
  | nameTooLong => "File name too long (os error 36)"
  | zeroInName => "file name contained an unexpected NUL byte"
  | notText => "stream did not contain valid UTF-8"
  | other reason => reason

/-- Content as text. -/
def decodeText (content : List UInt8) : Except FileError String :=
  match String.fromUTF8? ⟨content.toArray⟩ with
  | some text => .ok text
  | none => .error .notText

/-- The content of a text. -/
def encodeText (text : String) : List UInt8 :=
  Text.utf8 text.toList

/-- What is found at a location. -/
inductive Entry
  | file (content : List UInt8)
  | directory
deriving Repr, DecidableEq, Inhabited

/-- The names that lead to an entry. -/
abbrev Location := List String

namespace Location

/-- The root of all locations. -/
def root : Location := ["/"]

/-- Whether a location is the working directory, one above it, or the root. -/
def isBase (l : Location) : Bool :=
  l == root || l.all (· == "..")

/-- The location one level up. -/
def parent (l : Location) : Location :=
  if l == root then root else if isBase l then l ++ [".."] else l.dropLast

/-- Where the way of a path starts. -/
def start (path : String) : Location :=
  if Path.isAbsolute path then root else []

end Location

/-- Files and directories by location. A directory that holds an entry need not be listed itself. -/
structure Files where
  entries : List (Location × Entry) := []
deriving Repr, DecidableEq, Inhabited

namespace Files

/-- The entry at a location. -/
def at? (files : Files) (l : Location) : Option Entry :=
  if l.isBase then some .directory
  else
    match files.entries.lookup l with
    | some entry => some entry
    | none => if files.entries.any (fun e => l.isPrefixOf e.1) then some .directory else none

/-- The entries after one has been replaced, or added at the end. -/
def update (l : Location) (entry : Entry) : List (Location × Entry) → List (Location × Entry)
  | [] => [(l, entry)]
  | e :: rest => if e.1 == l then (l, entry) :: rest else e :: update l entry rest

/-- The files in which a location has the given entry. -/
def set (files : Files) (l : Location) (entry : Entry) : Files :=
  ⟨update l entry files.entries⟩

/-- The files with an entry under a path, whose directories are made as needed. -/
def place (files : Files) (path : String) (entry : Entry) : Files :=
  files.set (Location.start path ++ (Path.pieces path).filter (fun p => !Path.isIdle p)) entry

/-- The greatest number of bytes of a name. -/
def nameLimit : Nat := 255

/-- The greatest number of bytes of a path. -/
def pathLimit : Nat := 4095

/-- The location of a name in a directory. -/
def child (l : Location) (name : String) : Except FileError Location :=
  if nameLimit < Text.byteSize name.toList then .error .nameTooLong else .ok (l ++ [name])

/-- The location that one more component leads to. -/
def step (files : Files) (l : Location) (piece : String) : Except FileError Location :=
  match files.at? l with
  | none => .error .notFound
  | some (.file _) => .error .notDirectory
  | some .directory =>
    if Path.isIdle piece then .ok l
    else if piece == ".." then .ok l.parent
    else do
      let next ← child l piece
      if (files.at? next).isSome then return next else throw .notFound

/-- A path that can be followed at all. -/
def checkPath (path : String) : Except FileError Unit :=
  if '\x00' ∈ path.toList then .error .zeroInName
  else if path.isEmpty then .error .notFound
  else if pathLimit < Text.byteSize path.toList then .error .nameTooLong
  else .ok ()

/-- The content of the file that a path leads to. -/
def read (files : Files) (path : String) : Except FileError (List UInt8) := do
  checkPath path
  let l ← (Path.pieces path).foldlM files.step (Location.start path)
  match files.at? l with
  | some (.file content) => return content
  | some .directory => throw .isDirectory
  | none => throw .notFound

/-- The files after content has been written to a path. The directory of the file must exist, and a
slash at the end asks for a directory, which cannot be written to. -/
def write (files : Files) (path : String) (content : List UInt8) : Except FileError Files := do
  checkPath path
  match (Path.pieces path).reverse.dropWhile (· == "") with
  | [] => throw .isDirectory
  | name :: before =>
    let l ← before.reverse.foldlM files.step (Location.start path)
    if files.at? l != some .directory then throw .notDirectory
    if name == "." || name == ".." || path.toList.getLast? == some '/' then throw .isDirectory
    let l ← child l name
    if files.at? l == some .directory then throw .isDirectory
    return files.set l (.file content)

/-- The files with their locations, without the directories. -/
def contents (files : Files) : List (Location × List UInt8) :=
  files.entries.filterMap fun (l, entry) =>
    match entry with
    | .file content => some (l, content)
    | .directory => none

end Files

end Firestorm
