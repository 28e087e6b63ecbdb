import Firestorm.Files
import Firestorm.Source
import Firestorm.Text.Alphanumeric
import Firestorm.Text.Line

/-!
# Included files

A directive `$include <path>` in a text is dropped, and the file it names is appended behind the
text between two marks, which tell where the lines of the file are. Directives in the file are
followed in the same way. A path is looked up as it stands, then below each directory of a list;
only when a candidate is not found the next one is tried. Every path is included once.

## Main definitions

* `Include.split`, `Include.candidates`, `Include.expandWithin`, `Files.expand`.
-/

namespace Firestorm

/-- Why a file cannot be included. -/
inductive IncludeError
  | notFound (path : String)
  | unreadable (path : String) (cause : FileError)
  | tooDeep (path : String)
deriving Repr, DecidableEq, Inhabited

/-- The wording of an error. -/
def IncludeError.message : IncludeError → String
  | notFound path => s!"Could not include `{path}`"
  | unreadable path _ => s!"Failed to read `{path}`"
  | tooDeep path => s!"Includes are nested too deeply at `{path}`"

/-- The wording of what lies behind an error. -/
def IncludeError.causes : IncludeError → List String
  | unreadable _ cause => [cause.message]
  | notFound _ | tooDeep _ => []

namespace Include

/-- The word that starts a directive. -/
def directive : List Char := "$include".toList

/-- Whether a character can be part of the path of a directive. -/
def isPathChar (c : Char) : Bool :=
  Text.isAlphanumeric c || c == '_' || c == '/' || c == '.' || c == '-'

/-- A text without a space in front. -/
def skipSpace : List Char → List Char
  | ' ' :: cs => cs
  | cs => cs

/-- The path between angle brackets at the start of a text, and the rest behind it. -/
def path? (cs : List Char) : Option (String × List Char) :=
  match skipSpace cs with
  | '<' :: cs =>
    let path := cs.takeWhile (· != '>')
    match cs.dropWhile (· != '>') with
    | [] => none
    | _ :: rest =>
      if !path.isEmpty && path.all isPathChar then some (String.ofList path, rest) else none
  | _ => none

/-- The path of the directive at the start of a text, and the rest behind it. -/
def directive? (cs : List Char) : Option (String × List Char) :=
  Text.behind? directive cs >>= path?

theorem length_skipSpace_le (cs : List Char) : (skipSpace cs).length ≤ cs.length := by
  unfold skipSpace
  split <;> simp

theorem length_lt_of_path? {cs rest : List Char} {path : String}
    (h : path? cs = some (path, rest)) : rest.length < cs.length := by
  have hskip := length_skipSpace_le cs
  unfold path? at h
  split at h
  case h_1 ds hds =>
    dsimp only at h
    have hdrop := (List.dropWhile_sublist (l := ds) (· != '>')).length_le
    split at h
    case h_1 => cases h
    case h_2 d tail htail =>
      split at h
      · simp only [Option.some.injEq, Prod.mk.injEq] at h
        rw [htail, List.length_cons, h.2] at hdrop
        rw [hds, List.length_cons] at hskip
        omega
      · cases h
  case h_2 => cases h

theorem length_le_of_behind? {start cs rest : List Char} (h : Text.behind? start cs = some rest) :
    rest.length ≤ cs.length := by
  induction start generalizing cs with
  | nil =>
    simp only [Text.behind?, Option.some.injEq] at h
    simp [h]
  | cons s start ih =>
    cases cs with
    | nil => simp [Text.behind?] at h
    | cons c cs =>
      simp only [Text.behind?] at h
      split at h
      · exact Nat.le_succ_of_le (ih h)
      · cases h

theorem length_lt_of_directive? {cs rest : List Char} {path : String}
    (h : directive? cs = some (path, rest)) : rest.length < cs.length := by
  obtain ⟨behind, hbehind, hpath⟩ := Option.bind_eq_some_iff.1 h
  exact Nat.lt_of_lt_of_le (length_lt_of_path? hpath) (length_le_of_behind? hbehind)

/-- A text without its directives, and the paths that they name in order. -/
def splitChars (cs : List Char) : List Char × List String :=
  match h : directive? cs with
  | some (path, rest) =>
    have := length_lt_of_directive? h
    let (text, paths) := splitChars rest
    (text, path :: paths)
  | none =>
    match cs with
    | [] => ([], [])
    | c :: rest =>
      let (text, paths) := splitChars rest
      (c :: text, paths)
termination_by cs.length

/-- A text without its directives, and the paths that they name in order. -/
def split (text : String) : String × List String :=
  let (rest, paths) := splitChars text.toList
  (String.ofList rest, paths)

/-- Where a path is looked for: as it stands, then below each directory. -/
def candidates (directories : List String) (path : String) : List String :=
  path :: directories.map fun d => Path.join d path

/-- An included text between the marks that name its path. -/
def block (path text : String) : String :=
  "\n" ++ Source.openMarker ++ path ++ "\n" ++ text ++ "\n" ++ Source.closeMarker ++ "\n"

section

variable {m : Type → Type} [Monad m]

/-- A computation that knows the paths included so far, also behind an error. -/
abbrev Expansion (m : Type → Type) (α : Type) := ExceptT IncludeError (StateT (List String) m) α

/-- The text of the first candidate that is found. -/
def search (read : String → m (Except FileError String)) (path : String) :
    List String → m (Except IncludeError String)
  | [] => return .error (.notFound path)
  | candidate :: rest => do
    match ← read candidate with
    | .ok text => return .ok text
    | .error .notFound => search read path rest
    | .error cause => return .error (.unreadable candidate cause)

/-- The blocks of paths in order. The text of a path that is included already is read but left
out. -/
def blocks (find : String → m (Except IncludeError String))
    (nested : (path text : String) → Expansion m String) : List String → Expansion m String
  | [] => return ""
  | path :: rest => do
    let text ← ExceptT.mk (find path)
    if path ∈ (← get) then blocks find nested rest
    else
      modify (path :: ·)
      let inner ← nested path text
      return block path inner ++ (← blocks find nested rest)

/-- A text with the files it includes, which are nested to the given depth at most. -/
def expandWithin (find : String → m (Except IncludeError String)) :
    (depth : Nat) → (text : String) → Expansion m String
  | 0, text => do
    let (rest, paths) := split text
    return rest ++ (← blocks find (fun path _ => throw (.tooDeep path)) paths)
  | depth + 1, text => do
    let (rest, paths) := split text
    return rest ++ (← blocks find (fun _ inner => expandWithin find depth inner) paths)

end

/-- A bound on the depth of includes that no collection of files of practical size reaches. -/
def ampleDepth : Nat := 1000000000000000000

/-- The directories in which files are looked for if a target is compiled for. -/
def defaultDirectories (target : String) : List String :=
  ["stdlib", "/usr/firestorm/include", Path.join "stdlib" target]

end Include

namespace Files

/-- The text of a file. -/
def readText (files : Files) (path : String) : Except FileError String :=
  files.read path >>= decodeText

/-- The number of directives in a text and in all files that are texts. Includes cannot be nested
deeper, since a path is included once. -/
def includeDepth (files : Files) (text : String) : Nat :=
  let texts := files.contents.filterMap fun (_, content) => (decodeText content).toOption
  (text :: texts).foldr (fun t depth => (Include.split t).2.length + depth) 0

/-- A text with the files it includes, and the paths included behind it. -/
def expand (files : Files) (directories : List String) (included : List String) (text : String) :
    Except IncludeError String × List String :=
  let read (path : String) : Id (Except FileError String) := files.readText path
  let find (path : String) := Include.search read path (Include.candidates directories path)
  (Include.expandWithin find (files.includeDepth text) text).run included

end Files

end Firestorm
