import ScriptFront.Diagnostic.Collection
import ScriptFront.Files.Tree
import ScriptFront.Include
import ScriptFront.LineMap
import ScriptFront.Preprocess.FilePass

/-! Reading a script with all that it takes in. The preprocessed lines of all files become one text, in
which the lines of an included file stand in the place of the include line. Each file is read once,
and definitions pass from file to file in the order of the text. -/
namespace ScriptFront

/-- Preprocessing empties a line or gives it one of its forms, so all that a file takes in is
mentioned in it. -/
theorem FilePass.processLine_mem_forms {hash : NameHash} (p : FilePass) (s : Symbols hash)
    (index : Nat) (line : Line) :
    (p.processLine s index line).1 = [] ∨ (p.processLine s index line).1 ∈ Include.forms line := by
  unfold processLine
  split
  · split
    · exact .inl rfl
    · next rest h =>
      dsimp only [code]
      split
      · exact .inr (by simp [Include.forms, h])
      · exact .inl rfl
  · split
    · dsimp only
      split
      · exact .inr (by simp [Include.forms])
      · exact .inl rfl
    · dsimp only [code]
      split
      · exact .inr (by simp [Include.forms])
      · exact .inl rfl

/-- A script as far as it is read. -/
structure Script (hash : NameHash) where
  symbols : Symbols hash
  lines : Array Line
  lineMap : LineMap
  /-- The files that were read, in their order. -/
  files : Array SourceFile
  /-- The hashes of the paths that were taken up, readable or not. -/
  seen : List UInt64
  diagnostics : Diagnostics

/-- The include line by which a file is taken up. Its number counts from 1. -/
structure IncludeSite where
  file : SourceFile
  line : Nat
  deriving DecidableEq, Repr

/-- How deep includes may be nested, with the script itself as the first level. -/
def maxIncludeDepth : Nat := 50

/-- A file has its path from the directory `root` as its name, or its whole path if it is not below
that directory. -/
def SourceFile.at (root place : Place) : SourceFile :=
  let path := place.path
  let name := if root.isPrefixOf place then (Place.path (place.drop root.length)).drop 1 else path
  ⟨String.ofList path, String.ofList (Path.withSlashes name)⟩

namespace Script

variable {hash : NameHash}

def start (symbols : Symbols hash) (errorLimit : Nat) : Script hash :=
  ⟨symbols, #[], .empty, #[], [], .new errorLimit⟩

def addError (s : Script hash) (e : ErrorRecord) : Script hash :=
  { s with diagnostics := s.diagnostics.addError e }

/-- A fault of reading, at the include line if there is one. -/
def addLoadError (s : Script hash) (code : ErrorCode) (message : String)
    (site : Option IncludeSite) : Script hash :=
  let e := ErrorRecord.new code message
  s.addError (site.elim e fun site => e.located site.file site.line)

def addReport (s : Script hash) (file : SourceFile) (r : LineReport) : Script hash :=
  let errors := r.errors.map fun e =>
    (ErrorRecord.new e.code e.message).located file (lineNumber e.line)
  let add (d : Diagnostics) (w : LineWarning) : Diagnostics :=
    d.addWarning w.code w.message ⟨some file, lineNumber w.line⟩
  { s with diagnostics := r.warnings.foldl add (s.diagnostics.addErrors errors) }

def pushLine (s : Script hash) (line : Line) : Script hash :=
  { s with lines := s.lines.push line }

/-- The lines that follow are those of `file` from `offset` on. -/
def startInterval (s : Script hash) (file : SourceFile) (offset : Nat) : Script hash :=
  { s with lineMap := s.lineMap.push ⟨s.lines.size, file, offset⟩ }

/-- Takes in what an include line of a file in `base` asks for, with `load` for each of the files. -/
def follow (tree : FileTree) (base : Path) (load : Path → Script hash → Script hash)
    (i : Include) (site : IncludeSite) (s : Script hash) : Script hash :=
  let directory := base.join i.directory
  match i.target with
  | .file name => load (directory.join name) s
  | .wildcard =>
    match tree.filesIn directory Include.extension with
    | .error e =>
      let name := String.ofList directory
      s.addLoadError .unreadableFile s!"failed to list script files in '{name}': {e.message}" site
    | .ok paths => paths.foldl (fun s path => load path s) s

/-- Reads a line. A faulty include line leaves an empty line, any other include line leaves none. -/
def readLine (follow : Include → IncludeSite → Script hash → Script hash) (file : SourceFile)
    (index : Nat) (p : FilePass) (s : Script hash) (line : Line) : FilePass × Script hash :=
  let (line, p, symbols) := p.processLine s.symbols index line
  let s := { s with symbols }
  match Include.ofLine? line with
  | none => (p, s.pushLine line)
  | some (.error e) =>
    let s := s.addError ((ErrorRecord.new .malformedInclude e.message).located file (lineNumber index))
    (p, s.pushLine [])
  | some (.ok i) =>
    let (report, p) := p.takeReport
    let s := follow i ⟨file, lineNumber index⟩ (s.addReport file report)
    (p, s.startInterval file (index + 1))

def readLines (follow : Include → IncludeSite → Script hash → Script hash) (file : SourceFile)
    (index : Nat) (p : FilePass) (s : Script hash) : List Line → Script hash
  | [] => s.addReport file p.finish
  | line :: lines =>
    let (p, s) := readLine follow file index p s line
    readLines follow file (index + 1) p s lines

def readFile (follow : Include → IncludeSite → Script hash → Script hash) (file : SourceFile)
    (text : String) (s : Script hash) : Script hash :=
  let s := { s with files := s.files.push file }
  readLines follow file 0 .start (s.startInterval file 0) (Text.lines text.toList)

/-- What is said of a file that is asked for where no more levels of files are left. -/
def tooDeepMessage (path : Path) : String :=
  let cause := s!"includes nested deeper than {maxIncludeDepth} while loading '{String.ofList path}'"
  cause ++ " (possibly a cycle in the includes)"

/-- Reads the file at a path and all that it takes in, unless that was read before. `room` is how many
levels of files there may be, this one among them. -/
def load (tree : FileTree) (root : Place) :
    Nat → Option IncludeSite → Path → Script hash → Script hash
  | 0, site, path, s => s.addLoadError .includeTooDeep (tooDeepMessage path) site
  | room + 1, site, path, s =>
    let fail (s : Script hash) (e : FileError) : Script hash :=
      let name := String.ofList path
      s.addLoadError .unreadableFile s!"failed to load script file '{name}': {e.message}" site
    match tree.locate path with
    | .error e => fail s e
    | .ok place =>
      let h := hash (String.ofList place.path)
      if s.seen.contains h then s
      else
        let s := { s with seen := h :: s.seen }
        match tree.readText place with
        | .error e => fail s e
        | .ok text =>
          let include_ (i : Include) (site : IncludeSite) : Script hash → Script hash :=
            follow tree (Place.path place.dropLast) (load tree root room (some site)) i site
          readFile include_ (.at root place) text s

/-- The directory of the script at a path, by which its files are named. -/
def rootOf (tree : FileTree) (path : Path) : Place :=
  ((tree.locate path).toOption.getD []).dropLast

def read (tree : FileTree) (path : Path) (s : Script hash) : Script hash :=
  s.load tree (rootOf tree path) maxIncludeDepth none path

/-- An error in a combined line, at the place where the line comes from. -/
def addErrorAt (s : Script hash) (e : ErrorRecord) (line : Nat) : Script hash :=
  match s.lineMap.translate line with
  | .ok (file, line) => s.addError (e.located file (lineNumber line))
  | .error _ => s.addError e

def text (s : Script hash) : String :=
  String.ofList (s.lines.toList.flatMap fun line => line ++ ['\n'])

end Script
end ScriptFront
