import ScriptFront.Files.Path

/-! Files and directories in memory, and what is found when a path is followed through them. -/
namespace ScriptFront

inductive FileError
  | notFound
  | notDirectory
  | isDirectory
  | nameTooLong
  | nulInPath
  /-- The bytes of the file are no UTF-8. -/
  | notText
  deriving DecidableEq, Repr

def FileError.message : FileError → String
  | notFound => "No such file or directory (os error 2)"
  | notDirectory => "Not a directory (os error 20)"
  | isDirectory => "Is a directory (os error 21)"
  | nameTooLong => "File name too long (os error 36)"
  | nulInPath => "file name contained an unexpected NUL byte"
  | notText => "stream did not contain valid UTF-8"

inductive FileEntry
  | directory
  | file (content : ByteArray)

instance : DecidableEq FileEntry
  | .directory, .directory => isTrue rfl
  | .file a, .file b =>
    match ByteArray.instDecidableEq a b with
    | isTrue h => isTrue (congrArg _ h)
    | isFalse h => isFalse fun e => h (FileEntry.file.inj e)
  | .directory, .file _ | .file _, .directory => isFalse nofun

/-- What is at each place. The root is always a directory. Paths that are not absolute begin at the
working directory. -/
structure FileTree where
  entries : List (Place × FileEntry)
  workingDirectory : Place

namespace FileTree

def empty : FileTree := ⟨[], []⟩

def get? (t : FileTree) (place : Place) : Option FileEntry :=
  if place.isEmpty then some .directory else (t.entries.find? (·.1 == place)).map (·.2)

def isDirectory (t : FileTree) (place : Place) : Bool := t.get? place == some .directory

def isFile (t : FileTree) (place : Place) : Bool :=
  match t.get? place with
  | some (.file _) => true
  | _ => false

def set (t : FileTree) (place : Place) (e : FileEntry) : FileTree :=
  { t with entries := (place, e) :: t.entries.filter (·.1 != place) }

@[simp] theorem get?_nil (t : FileTree) : t.get? [] = some .directory := rfl

theorem get?_set_self (t : FileTree) {place : Place} (e : FileEntry) (h : place ≠ []) :
    (t.set place e).get? place = some e := by
  simp [get?, set, h]

theorem get?_set_of_ne (t : FileTree) {place other : Place} (e : FileEntry) (h : other ≠ place) :
    (t.set place e).get? other = t.get? other := by
  have hp : ∀ x : Place × FileEntry, (!decide (x.1 = place) && decide (x.1 = other)) =
      (x.1 == other) := by
    intro x
    by_cases hx : x.1 = other <;> simp [hx, h]
  simp [get?, set, List.find?_filter, Ne.symm h, funext hp]

def erase (t : FileTree) (place : Place) : FileTree :=
  { t with entries := t.entries.filter fun e => !place.isPrefixOf e.1 }

/-- Puts an entry at a place, and directories on the way to it where nothing is yet. -/
def insert (t : FileTree) (place : Place) (e : FileEntry) : FileTree :=
  let above := (List.range place.length).map place.take
  let t := above.foldl (fun t p => if (t.get? p).isSome then t else t.set p .directory) t
  t.set place e

/-- The longest name, in bytes. -/
def nameLimit : Nat := 255

/-- The longest path that a file or a directory can be opened by, in bytes. -/
def pathLimit : Nat := 4095

def isDot (name : Path) : Bool := name == ['.']

def isDotDot (name : Path) : Bool := name == ['.', '.']

/-- Where a name leads from a place. The directory above the root is the root. -/
def enter (t : FileTree) (here : Place) (name : Path) : Except FileError Place :=
  if !t.isDirectory here then .error .notDirectory
  else if name.isEmpty || isDot name then .ok here
  else if isDotDot name then .ok here.dropLast
  else if nameLimit < Text.byteSize name then .error .nameTooLong
  else if (t.get? (here ++ [name])).isSome then .ok (here ++ [name])
  else .error .notFound

def origin (t : FileTree) (path : Path) : Place :=
  if path.isAbsolute then [] else t.workingDirectory

/-- A path has to be one that files can have at all. -/
def checkPath (path : Path) : Except FileError Unit :=
  if path.contains '\x00' then .error .nulInPath
  else if path.isEmpty then .error .notFound
  else .ok ()

/-- The place that a path leads to. Each name on the way has to be there. -/
def locate (t : FileTree) (path : Path) : Except FileError Place := do
  checkPath path
  path.segments.foldlM t.enter (t.origin path)

def readText (t : FileTree) (place : Place) : Except FileError String :=
  match t.get? place with
  | none => .error .notFound
  | some .directory => .error .isDirectory
  | some (.file content) =>
    match String.fromUTF8? content with
    | some text => .ok text
    | none => .error .notText

def fileNames (t : FileTree) (place : Place) : List Path :=
  t.entries.filterMap fun (p, _) =>
    match p.getLast? with
    | some name => if p.dropLast = place ∧ t.isFile p then some name else none
    | none => none

/-- The paths of the files in a directory whose names end in `suffix`, in the order of the names. -/
def filesIn (t : FileTree) (directory suffix : Path) : Except FileError (List Path) := do
  checkPath directory
  if pathLimit < Text.byteSize directory then throw .nameTooLong
  let place ← t.locate directory
  if !t.isDirectory place then throw .notDirectory
  let names := (t.fileNames place).filter (Path.hasExtension · suffix)
  let paths := (names.mergeSort fun a b => (compare a b).isLE).map directory.join
  return paths.filter fun p => Text.byteSize p ≤ pathLimit

/-- Writes a file by its path. Its directory has to be there. -/
def write (t : FileTree) (path : Path) (content : ByteArray) : Except FileError FileTree := do
  checkPath path
  if pathLimit < Text.byteSize path then throw .nameTooLong
  let names := (path.segments.reverse.dropWhile List.isEmpty).reverse
  let here ← names.dropLast.foldlM t.enter (t.origin path)
  if !t.isDirectory here then throw .notDirectory
  let name := names.getLast?.getD []
  if path.getLast? = some '/' ∨ isDot name ∨ isDotDot name then throw .isDirectory
  if nameLimit < Text.byteSize name then throw .nameTooLong
  if t.isDirectory (here ++ [name]) then throw .isDirectory
  return t.set (here ++ [name]) (.file content)

end FileTree
end ScriptFront
