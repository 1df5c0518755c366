import ScriptFront.Files.Path
import ScriptFront.Text.Comment

/-! The lines by which a script takes in other scripts: `#include "path"` and the older form
`include path` at the start of a line. The file `?` stands for all scripts of its directory. -/
namespace ScriptFront

inductive IncludeTarget
  | file (name : Path)
  /-- All scripts of the directory. -/
  | wildcard
  deriving DecidableEq, Repr

/-- What is taken in. The directory is empty if it is that of the script. -/
structure Include where
  directory : Path
  target : IncludeTarget
  deriving DecidableEq, Repr

inductive IncludeError
  | missingPath
  | unterminatedPath
  | emptyPath
  deriving DecidableEq, Repr

def IncludeError.message : IncludeError → String
  | missingPath => "expected a quoted path after #include"
  | unterminatedPath => "include path is not terminated"
  | emptyPath => "include path is empty"

namespace Include

/-- What the file names of scripts end in. -/
def extension : Path := ".lemon".toList

/-- The path of an include line. A backslash in it separates names like a slash, and `suffix` is
added to the name of a file. -/
def ofPath (path suffix : Path) : Except IncludeError Include :=
  let (directory, name) := Path.splitLast (Path.withSlashes path)
  if name.isEmpty then .error .emptyPath
  else if name = ['?'] then .ok ⟨directory, .wildcard⟩
  else .ok ⟨directory, .file (name ++ suffix)⟩

/-- The older form gives a path without quotes and without the end of the file name. -/
def older (rest : List Char) : Except IncludeError Include :=
  ofPath ((Text.trimStart rest).takeWhile fun c => !Text.isIndent c) extension

def quoted (rest : List Char) : Except IncludeError Include :=
  match Text.trim (Text.Comment.statement rest).text with
  | '"' :: s =>
    match Text.Quoted.decode? s with
    | some (path, _) => ofPath path []
    | none => .error .unterminatedPath
  | _ => .error .missingPath

def continuesWord (c : Char) : Bool := c.isAlphanum || c == '_'

/-- What follows the word `include` of a directive line. -/
def afterWord? (line : Line) : Option (List Char) :=
  match line.dropWhile Text.isIndent with
  | '#' :: s =>
    match Text.after? "include".toList (s.dropWhile Text.isIndent) with
    | some rest => if rest.head?.any continuesWord then none else some rest
    | none => none
  | _ => none

def ofLine? (line : Line) : Option (Except IncludeError Include) :=
  match Text.after? "include ".toList line with
  | some rest => some (older rest)
  | none => (afterWord? line).map quoted

/-- The forms in which a line may come out of preprocessing, whatever was defined before it. -/
def forms (line : Line) : List Line :=
  let resumed := (Text.Comment.afterEnd? line).toList.map fun rest => ' ' :: rest
  line :: (line :: resumed).map fun l => (Text.Comment.erase l).text

/-- All that the lines of a file may take in. -/
def mentioned (lines : List Line) : List Include :=
  (lines.flatMap forms).filterMap fun line => (ofLine? line).bind (·.toOption)

end Include
end ScriptFront
