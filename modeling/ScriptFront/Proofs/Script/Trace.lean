import ScriptFront.Proofs.Script.Outline

/-! The steps of reading a script, each with the script as it is before the step. -/
namespace ScriptFront

inductive ReadStep (hash : NameHash)
  /-- The file at a path is asked for, where `room` more levels of files are left. -/
  | path (room : Nat) (site : Option IncludeSite) (path : Path) (before : Script hash)
  /-- An include line of a file in the directory `base` is followed, where `room` more levels of
  files are left below that file. -/
  | directive (room : Nat) (base : Path) (i : Include) (site : IncludeSite) (before : Script hash)
  /-- A line of a file is preprocessed. -/
  | line (pass : FilePass) (index : Nat) (line : Line) (before : Script hash)

namespace ReadStep

variable {hash : NameHash}

def before : ReadStep hash → Script hash
  | path _ _ _ s => s
  | directive _ _ _ _ s => s
  | line _ _ _ s => s

end ReadStep

namespace Script

variable {hash : NameHash}

/-- The steps of reading a line, with those of what it takes in. -/
def stepsOfLine (inner : Include → IncludeSite → Script hash → List (ReadStep hash))
    (file : SourceFile) (index : Nat) (p : FilePass) (s : Script hash) (line : Line) :
    List (ReadStep hash) :=
  let (processed, q, symbols) := p.processLine s.symbols index line
  match Include.ofLine? processed with
  | some (.ok i) =>
    let s' := { s with symbols }.addReport file q.report
    .line p index line s :: inner i ⟨file, lineNumber index⟩ s'
  | _ => [.line p index line s]

def stepsOfLines (follow : Include → IncludeSite → Script hash → Script hash)
    (inner : Include → IncludeSite → Script hash → List (ReadStep hash)) (file : SourceFile)
    (index : Nat) (p : FilePass) (s : Script hash) : List Line → List (ReadStep hash)
  | [] => []
  | line :: lines =>
    let (p', s') := readLine follow file index p s line
    stepsOfLine inner file index p s line ++
      stepsOfLines follow inner file (index + 1) p' s' lines

def stepsOfPaths (load : Path → Script hash → Script hash)
    (inner : Path → Script hash → List (ReadStep hash)) (s : Script hash) :
    List Path → List (ReadStep hash)
  | [] => []
  | path :: paths => inner path s ++ stepsOfPaths load inner (load path s) paths

/-- The steps of `load`. -/
def steps (tree : FileTree) (root : Place) :
    Nat → Option IncludeSite → Path → Script hash → List (ReadStep hash)
  | 0, site, path, s => [.path 0 site path s]
  | room + 1, site, path, s => .path (room + 1) site path s ::
    match tree.locate path with
    | .error _ => []
    | .ok place =>
      let h := hash (String.ofList place.path)
      if s.seen.contains h then []
      else
        let s := { s with seen := h :: s.seen }
        match tree.readText place with
        | .error _ => []
        | .ok text =>
          let file : SourceFile := .at root place
          let base := Place.path place.dropLast
          let load (site : IncludeSite) := load tree root room (some site)
          let inner (i : Include) (site : IncludeSite) (s : Script hash) :=
            .directive room base i site s ::
              stepsOfPaths (load site) (steps tree root room (some site)) s
                (Outline.targets tree base i)
          let s := { s with files := s.files.push file }.startInterval file 0
          stepsOfLines (fun i site => follow tree base (load site) i site) inner file 0 .start s
            (Text.lines text.toList)

section

variable (follow : Include → IncludeSite → Script hash → Script hash)
  (inner : Include → IncludeSite → Script hash → List (ReadStep hash)) (file : SourceFile)
  {index : Nat} {p q : FilePass} {s : Script hash} {line processed : Line} {symbols : Symbols hash}

/-! A line is read in one of three ways. -/

theorem readLine_of_text (hrun : p.processLine s.symbols index line = (processed, q, symbols))
    (hline : Include.ofLine? processed = none) :
    readLine follow file index p s line = (q, { s with symbols }.pushLine processed) ∧
      stepsOfLine inner file index p s line = [.line p index line s] := by
  simp only [readLine, stepsOfLine, hrun, hline, and_self]

theorem readLine_of_faulty (hrun : p.processLine s.symbols index line = (processed, q, symbols))
    {e : IncludeError} (hline : Include.ofLine? processed = some (.error e)) :
    readLine follow file index p s line =
        (q, ({ s with symbols }.addError ((ErrorRecord.new .malformedInclude e.message).located file
          (lineNumber index))).pushLine []) ∧
      stepsOfLine inner file index p s line = [.line p index line s] := by
  simp only [readLine, stepsOfLine, hrun, hline, and_self]

theorem readLine_of_include (hrun : p.processLine s.symbols index line = (processed, q, symbols))
    {i : Include} (hline : Include.ofLine? processed = some (.ok i)) :
    let site : IncludeSite := ⟨file, lineNumber index⟩
    let reported := { s with symbols }.addReport file q.report
    readLine follow file index p s line =
        (q.takeReport.2, (follow i site reported).startInterval file (index + 1)) ∧
      stepsOfLine inner file index p s line = .line p index line s :: inner i site reported := by
  simp only [readLine, stepsOfLine, hrun, hline, FilePass.takeReport, and_self]

end

/-- The steps of `read`. -/
def stepsOfScript (tree : FileTree) (path : Path) (s : Script hash) : List (ReadStep hash) :=
  steps tree (rootOf tree path) maxIncludeDepth none path s

end Script
end ScriptFront
