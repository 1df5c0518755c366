import ScriptFront.Proofs.Script.LineMap
import ScriptFront.Script
import Mathlib.Data.List.Nodup
import Mathlib.Data.List.Perm.Basic

/-! What a script takes in. Its outline tells of each line of each file where it stands and what
preprocessing makes of it. Include lines are followed, all other lines are put into the text. -/
namespace ScriptFront

variable {hash : NameHash}

/-- A line of a file, as it stands there and as preprocessing leaves it. -/
structure ReadLine where
  origin : FileLine
  source : Line
  processed : Line
  deriving DecidableEq, Repr

namespace ReadLine

/-- What the line takes in, if it is an include line without a fault. -/
def include? (l : ReadLine) : Option Include := (Include.ofLine? l.processed).bind (·.toOption)

/-- What the text has for the line. A faulty include line is empty there. -/
def text (l : ReadLine) : Line := if (Include.ofLine? l.processed).isSome then [] else l.processed

def numbered (l : ReadLine) : FileLine × Line := (l.origin, l.source)

variable {l : ReadLine}

theorem include?_eq_some_iff {i : Include} :
    l.include? = some i ↔ Include.ofLine? l.processed = some (.ok i) := by
  unfold include?
  rcases Include.ofLine? l.processed with _ | _ | i <;> simp [Except.toOption]

theorem own_of_no_include (h : Include.ofLine? l.processed = none) :
    l.include? = none ∧ l.text = l.processed := by
  simp [include?, text, h]

theorem own_of_faulty {e : IncludeError} (h : Include.ofLine? l.processed = some (.error e)) :
    l.include? = none ∧ l.text = [] := by
  simp [include?, text, h, Except.toOption]

end ReadLine

/-- A file with its lines as they stand in it. -/
structure ReadFile where
  file : SourceFile
  lines : List Line
  deriving DecidableEq, Repr

/-- Lines of a file with their places, the first of which has the given index. -/
def SourceFile.numberedFrom (file : SourceFile) (index : Nat) : List Line → List (FileLine × Line)
  | [] => []
  | line :: lines => (⟨file, index⟩, line) :: file.numberedFrom (index + 1) lines

def ReadFile.numbered (f : ReadFile) : List (FileLine × Line) := f.file.numberedFrom 0 f.lines

/-- The lines of the text in their order, the include lines that were followed, and the files. -/
structure Outline where
  lines : List ReadLine
  followed : List ReadLine
  files : List ReadFile
  deriving DecidableEq, Repr

/-- What reading a file hands on to the next one. -/
structure Progress (hash : NameHash) where
  symbols : Symbols hash
  /-- The hashes of the paths that were taken up. -/
  seen : List UInt64

/-- The files that an include line of a file in `base` asks for, in their order: a wildcard asks for
each script of its directory. There is an error if the directory cannot be listed. -/
def Include.asked (tree : FileTree) (base : Path) (i : Include) : Except FileError (List Path) :=
  let directory := base.join i.directory
  match i.target with
  | .file name => .ok [directory.join name]
  | .wildcard => tree.filesIn directory extension

namespace Outline

def empty : Outline := ⟨[], [], []⟩

def append (a b : Outline) : Outline :=
  ⟨a.lines ++ b.lines, a.followed ++ b.followed, a.files ++ b.files⟩

instance : Append Outline := ⟨append⟩

/-- The lines of all files, whether they are in the text or were followed. -/
def allLines (o : Outline) : List ReadLine := o.lines ++ o.followed

@[simp] theorem lines_append (a b : Outline) : (a ++ b).lines = a.lines ++ b.lines := rfl

@[simp] theorem followed_append (a b : Outline) :
    (a ++ b).followed = a.followed ++ b.followed := rfl

@[simp] theorem files_append (a b : Outline) : (a ++ b).files = a.files ++ b.files := rfl

theorem mem_allLines_append {a b : Outline} {l : ReadLine} :
    l ∈ (a ++ b).allLines ↔ l ∈ a.allLines ∨ l ∈ b.allLines := by
  simp only [allLines, lines_append, followed_append, List.mem_append]
  tauto

theorem append_assoc (a b c : Outline) : a ++ b ++ c = a ++ (b ++ c) := by
  simp only [HAppend.hAppend, Append.append, append]
  simp

@[simp] theorem append_empty (a : Outline) : a ++ empty = a := by
  simp only [HAppend.hAppend, Append.append, append, empty]
  simp

def ofLine (l : ReadLine) : Outline := ⟨[l], [], []⟩

def ofFollowed (l : ReadLine) : Outline := ⟨[], [l], []⟩

def ofFile (f : ReadFile) : Outline := ⟨[], [], [f]⟩

/-- The files that an include line of a file in `base` asks for. -/
def targets (tree : FileTree) (base : Path) (i : Include) : List Path :=
  (i.asked tree base).toOption.getD []

/-- An include line is followed by loading what it asks for, file by file, or reports that its
directory cannot be listed. -/
theorem follow_cases (tree : FileTree) (base : Path) (load : Path → Script hash → Script hash)
    (i : Include) (site : IncludeSite) :
    (∃ paths, i.asked tree base = .ok paths ∧ targets tree base i = paths ∧
        Script.follow tree base load i site = fun s => paths.foldl (fun s path => load path s) s) ∨
      ∃ e message, i.asked tree base = .error e ∧ targets tree base i = [] ∧
        Script.follow tree base load i site =
          fun s => s.addLoadError .unreadableFile message site := by
  unfold Script.follow targets Include.asked
  cases i.target with
  | file name => exact .inl ⟨_, rfl, rfl, rfl⟩
  | wildcard =>
    dsimp only
    rcases tree.filesIn (base.join i.directory) Include.extension with e | paths
    · exact .inr ⟨e, _, rfl, rfl, rfl⟩
    · exact .inl ⟨paths, rfl, rfl, rfl⟩

/-- Lines of a file: in the place of an include line stands what it takes in. -/
def ofLines (follow : Include → Progress hash → Outline × Progress hash) (file : SourceFile)
    (index : Nat) (p : FilePass) (t : Progress hash) : List Line → Outline × Progress hash
  | [] => (empty, t)
  | source :: lines =>
    let (processed, p, symbols) := p.processLine t.symbols index source
    let line : ReadLine := ⟨⟨file, index⟩, source, processed⟩
    match line.include? with
    | none =>
      let (rest, t) := ofLines follow file (index + 1) p { t with symbols } lines
      (ofLine line ++ rest, t)
    | some i =>
      let (inner, t) := follow i { t with symbols }
      let (rest, t) := ofLines follow file (index + 1) p.takeReport.2 t lines
      (ofFollowed line ++ inner ++ rest, t)

/-- The files at the paths, one after the other, with `load` for each of them. -/
def ofPaths (load : Path → Progress hash → Outline × Progress hash) (t : Progress hash) :
    List Path → Outline × Progress hash
  | [] => (empty, t)
  | path :: paths =>
    let (first, t) := load path t
    let (rest, t) := ofPaths load t paths
    (first ++ rest, t)

/-- The file at a path with all that it takes in. There is nothing if it cannot be read, or was read
before, or no more levels of files are left. -/
def ofPath (tree : FileTree) (root : Place) :
    Nat → Path → Progress hash → Outline × Progress hash
  | 0, _, t => (empty, t)
  | room + 1, path, t =>
    match tree.locate path with
    | .error _ => (empty, t)
    | .ok place =>
      let h := hash (String.ofList place.path)
      if t.seen.contains h then (empty, t)
      else
        let t := { t with seen := h :: t.seen }
        match tree.readText place with
        | .error _ => (empty, t)
        | .ok text =>
          let file : ReadFile := ⟨.at root place, Text.lines text.toList⟩
          let follow (i : Include) (t : Progress hash) : Outline × Progress hash :=
            ofPaths (ofPath tree root room) t (targets tree (Place.path place.dropLast) i)
          let (inner, t) := ofLines follow file.file 0 .start t file.lines
          (ofFile file ++ inner, t)

/-- The script at a path, with the definitions that it starts from. -/
def ofScript (tree : FileTree) (path : Path) (symbols : Symbols hash) : Outline × Progress hash :=
  ofPath tree (Script.rootOf tree path) maxIncludeDepth path ⟨symbols, []⟩

/-- What holds of the outline `r.1` of a part of a script that is read from `t` on, of which the lines
`own` belong to files that were begun before. -/
structure Sound (tree : FileTree) (root : Place) (own : List (FileLine × Line))
    (t : Progress hash) (r : Outline × Progress hash) : Prop where
  /-- Each line of each file is there once, as a line of the text or as one that was followed. -/
  lines_once : (r.1.allLines.map ReadLine.numbered).Perm
    (own ++ r.1.files.flatMap ReadFile.numbered)
  /-- The lines of the text are those that are no include lines without a fault. -/
  not_followed : ∀ l ∈ r.1.lines, l.include? = none
  followed : ∀ l ∈ r.1.followed, ∃ i, l.include? = some i
  forms : ∀ l ∈ r.1.allLines, l.processed = [] ∨ l.processed ∈ Include.forms l.source
  files_read : ∀ f ∈ r.1.files, ∃ place text, f.file = .at root place ∧
    tree.readText place = .ok text ∧ f.lines = Text.lines text.toList
  files_once : (r.1.files.map fun f => hash f.file.path).Nodup
  files_new : ∀ f ∈ r.1.files, hash f.file.path ∉ t.seen
  files_seen : ∀ f ∈ r.1.files, hash f.file.path ∈ r.2.seen
  seen_subset : t.seen ⊆ r.2.seen

namespace Sound

variable {tree : FileTree} {root : Place} {t : Progress hash}

theorem empty (t : Progress hash) : Sound tree root [] t (Outline.empty, t) := by
  constructor <;> simp [Outline.empty, allLines]

theorem append {own own' : List (FileLine × Line)} {a b : Outline} {t' t'' : Progress hash}
    (ha : Sound tree root own t (a, t')) (hb : Sound tree root own' t' (b, t'')) :
    Sound tree root (own ++ own') t (a ++ b, t'') where
  lines_once := by
    have hperm := ha.lines_once.append hb.lines_once
    simp only [allLines, List.map_append, List.flatMap_append, lines_append, followed_append,
      files_append] at hperm ⊢
    rw [List.perm_iff_count] at hperm ⊢
    intro x
    have := hperm x
    simp only [List.count_append] at this ⊢
    omega
  not_followed l hl := (List.mem_append.mp hl).elim (ha.not_followed l) (hb.not_followed l)
  followed l hl := (List.mem_append.mp hl).elim (ha.followed l) (hb.followed l)
  forms l hl := (mem_allLines_append.mp hl).elim (ha.forms l) (hb.forms l)
  files_read f hf := (List.mem_append.mp hf).elim (ha.files_read f) (hb.files_read f)
  files_once := by
    simp only [files_append, List.map_append, List.nodup_append]
    refine ⟨ha.files_once, hb.files_once, ?_⟩
    -- what `a` has read is seen when `b` begins
    simp only [List.mem_map, forall_exists_index, and_imp]
    rintro _ f hf rfl _ g hg rfl heq
    exact hb.files_new g hg (heq ▸ ha.files_seen f hf)
  files_new f hf := (List.mem_append.mp hf).elim (ha.files_new f)
    fun hf hseen => hb.files_new f hf (ha.seen_subset hseen)
  files_seen f hf := (List.mem_append.mp hf).elim
    (fun hf => hb.seen_subset (ha.files_seen f hf)) (hb.files_seen f)
  seen_subset := fun _ hx => hb.seen_subset (ha.seen_subset hx)

/-- A line that stands by itself, in the text or among the lines that were followed. -/
theorem ofLine (symbols : Symbols hash) {l : ReadLine} (hl : l.include? = none)
    (hforms : l.processed = [] ∨ l.processed ∈ Include.forms l.source) :
    Sound tree root [l.numbered] t (Outline.ofLine l, { t with symbols }) := by
  constructor <;> simp [Outline.ofLine, allLines, hl, hforms]

theorem ofFollowed (symbols : Symbols hash) {l : ReadLine} {i : Include}
    (hl : l.include? = some i)
    (hforms : l.processed = [] ∨ l.processed ∈ Include.forms l.source) :
    Sound tree root [l.numbered] t (Outline.ofFollowed l, { t with symbols }) := by
  constructor <;> simp [Outline.ofFollowed, allLines, hl, hforms]

/-- A file that is complete with the lines that belong to it. -/
theorem ofFile {f : ReadFile} {a : Outline} {h : UInt64} {t' : Progress hash}
    (ha : Sound tree root f.numbered { t with seen := h :: t.seen } (a, t'))
    (hf : ∃ place text, f.file = .at root place ∧ tree.readText place = .ok text ∧
      f.lines = Text.lines text.toList)
    (hh : hash f.file.path = h) (hnew : h ∉ t.seen) :
    Sound tree root [] t (Outline.ofFile f ++ a, t') where
  lines_once := by simpa [Outline.ofFile, allLines] using ha.lines_once
  not_followed := by simpa [Outline.ofFile] using ha.not_followed
  followed := by simpa [Outline.ofFile] using ha.followed
  forms := by simpa [Outline.ofFile, allLines] using ha.forms
  files_read := by
    simpa only [Outline.ofFile, files_append, List.singleton_append, List.forall_mem_cons] using
      ⟨hf, ha.files_read⟩
  files_once := by
    simp only [Outline.ofFile, files_append, List.singleton_append, List.map_cons,
      List.nodup_cons, hh]
    refine ⟨fun hmem => ?_, ha.files_once⟩
    obtain ⟨g, hg, heq⟩ := List.mem_map.mp hmem
    exact ha.files_new g hg (heq ▸ List.mem_cons_self)
  files_new := by
    simp only [Outline.ofFile, files_append, List.singleton_append, List.forall_mem_cons, hh]
    exact ⟨hnew, fun g hg hseen => ha.files_new g hg (List.mem_cons_of_mem h hseen)⟩
  files_seen := by
    simp only [Outline.ofFile, files_append, List.singleton_append, List.forall_mem_cons, hh]
    exact ⟨ha.seen_subset List.mem_cons_self, ha.files_seen⟩
  seen_subset := fun _ hx => ha.seen_subset (List.mem_cons_of_mem h hx)

/-- A path that is taken up without a file to show for it. -/
theorem skip (h : UInt64) :
    Sound tree root [] t (Outline.empty, { t with seen := h :: t.seen }) := by
  constructor <;> simp [Outline.empty, allLines]

end Sound

variable {tree : FileTree} {root : Place}

theorem sound_ofLines {follow : Include → Progress hash → Outline × Progress hash}
    (hfollow : ∀ i t, Sound tree root [] t (follow i t)) (file : SourceFile) (index : Nat)
    (p : FilePass) (t : Progress hash) (lines : List Line) :
    Sound tree root (file.numberedFrom index lines) t
      (ofLines follow file index p t lines) := by
  induction lines generalizing index p t with
  | nil => exact Sound.empty t
  | cons source lines ih =>
    have hforms := FilePass.processLine_mem_forms p t.symbols index source
    unfold ofLines
    rcases hline : p.processLine t.symbols index source with ⟨processed, q, symbols⟩
    rw [hline] at hforms
    dsimp only
    split
    · next hl => exact (Sound.ofLine symbols hl hforms).append (ih ..)
    · next i hl =>
      have hinner := (Sound.ofFollowed symbols hl hforms).append (hfollow i { t with symbols })
      exact hinner.append (ih ..)

theorem sound_ofPaths {load : Path → Progress hash → Outline × Progress hash}
    (hload : ∀ path t, Sound tree root [] t (load path t)) (t : Progress hash)
    (paths : List Path) : Sound tree root [] t (ofPaths load t paths) := by
  induction paths generalizing t with
  | nil => exact Sound.empty t
  | cons path paths ih => exact (hload path t).append (ih _)

theorem sound_ofPath (tree : FileTree) (root : Place) (room : Nat) (path : Path)
    (t : Progress hash) : Sound tree root [] t (ofPath tree root room path t) := by
  induction room generalizing path t with
  | zero => exact Sound.empty t
  | succ room ih =>
    unfold ofPath
    split
    · exact Sound.empty t
    · next place hplace =>
      dsimp only
      split
      · exact Sound.empty t
      · next hseen =>
        split
        · exact Sound.skip _
        · next text htext =>
          refine Sound.ofFile (sound_ofLines (fun i t => sound_ofPaths ih t _) ..)
            ⟨place, text, rfl, htext, rfl⟩ rfl ?_
          simpa using hseen

end Outline
end ScriptFront
