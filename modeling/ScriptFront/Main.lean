import ScriptFront.Command

/-! The program. It copies into memory what is on the disk at the paths that the script can ask for,
runs the command on the copy, and writes the files that the command changed. -/
namespace ScriptFront.Disk

def copyPlace (t : FileTree) (place : Place) : IO FileTree := do
  let p := System.mkFilePath [String.ofList place.path]
  if ← p.isDir then return t.set place .directory
  if ← p.pathExists then return t.set place (.file (← IO.FS.readBinFile p))
  return t

/-- Copies the entries on the way to the end of a path, as far as the path can be followed. -/
def copyNames (t : FileTree) (here : Place) : List Path → IO FileTree
  | [] => return t
  | name :: names => do
    let t ← if name.isEmpty then pure t else copyPlace t (here ++ [name])
    match t.enter here name with
    | .ok place => copyNames t place names
    | .error _ => return t

def copyPath (t : FileTree) (path : Path) : IO FileTree :=
  if path.contains '\x00' then return t else copyNames t (t.origin path) path.segments

def copyDirectory (t : FileTree) (directory : Path) : IO FileTree := do
  let t ← copyPath t directory
  let .ok place := t.locate directory | return t
  if !t.isDirectory place then return t
  let entries ← (System.mkFilePath [String.ofList place.path]).readDir
  entries.foldlM (fun t e => copyPlace t (place ++ [e.fileName.toList])) t

/-- Copies what a file in the directory `base` may take in, and tells the paths of it. -/
def copyMentioned (base : Path) (t : FileTree) (i : Include) : IO (List Path × FileTree) := do
  let directory := base.join i.directory
  match i.target with
  | .file name => return ([directory.join name], ← copyPath t (directory.join name))
  | .wildcard =>
    let t ← copyDirectory t directory
    return ((t.filesIn directory Include.extension).toOption.getD [], t)

/-- Copies the scripts at the paths and all that they may take in. -/
partial def copyScripts (t : FileTree) (seen : List Place) : List Path → IO FileTree
  | [] => return t
  | path :: paths => do
    let t ← copyPath t path
    let .ok place := t.locate path | copyScripts t seen paths
    if seen.contains place then copyScripts t seen paths
    else
      let text := (t.readText place).toOption.getD ""
      let mut t := t
      let mut more := []
      for i in Include.mentioned (Text.lines text.toList) do
        let (found, copied) ← copyMentioned (Place.path place.dropLast) t i
        t := copied
        more := more ++ found
      copyScripts t (place :: seen) (more ++ paths)

def copyFor (args : List String) : IO FileTree := do
  let here := (Path.segments (← IO.currentDir).toString.toList).filter (!·.isEmpty)
  let t ← copyPath { FileTree.empty with workingDirectory := here } (Place.path here)
  match (Request.read args : Except ArgumentError (Path × Request NameHash.standard)) with
  | .error _ => return t
  | .ok (script, r) => copyScripts (← r.options.combinedSource.toList.foldlM copyPath t) [] [script]

/-- Writes the files that are new or have another content than before. -/
def writeChanges (old new : FileTree) : IO Unit :=
  for (place, entry) in new.entries do
    if let .file content := entry then
      if old.get? place != some entry then
        IO.FS.writeBinFile (System.mkFilePath [String.ofList place.path]) content

end ScriptFront.Disk

def main (args : List String) : IO UInt32 := do
  let tree ← ScriptFront.Disk.copyFor args
  let outcome := ScriptFront.Command.run tree args
  ScriptFront.Disk.writeChanges tree outcome.tree
  outcome.output.forM IO.println
  outcome.errors.forM IO.eprintln
  return outcome.code
