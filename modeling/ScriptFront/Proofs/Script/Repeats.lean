import ScriptFront.Proofs.Script.Trace
import Mathlib

/-! Files that are asked for once more. The paths of all files that were read are seen, so an
include line passes them over, except where includes are nested too deeply to ask. -/
namespace ScriptFront.Script

variable {hash : NameHash} {tree : FileTree} {root : Place} {s : Script hash}

/-- The path of each file that was read has been taken up. -/
def Known (s : Script hash) : Prop := ∀ file ∈ s.files, hash file.path ∈ s.seen

/-- A part of reading keeps the paths of all files known, at each of its steps and at its end, and
no path that was taken up is forgotten. -/
def KeepsKnown (run : Script hash → Script hash) (steps : Script hash → List (ReadStep hash)) :
    Prop :=
  ∀ s, s.Known → (run s).Known ∧ s.seen ⊆ (run s).seen ∧ ∀ e ∈ steps s, e.before.Known

theorem known_start (symbols : Symbols hash) (errorLimit : Nat) : (start symbols errorLimit).Known := by
  simp [Known, start]

theorem Known.addReport (h : s.Known) (file : SourceFile) (r : LineReport) :
    (s.addReport file r).Known := h

theorem Known.startFile (root place : Place) (h : s.Known)
    (hseen : hash (String.ofList place.path) ∈ s.seen) :
    ({ s with files := s.files.push (.at root place) }.startInterval (.at root place) 0).Known := by
  intro file hfile
  rcases Array.mem_push.mp hfile with hfile | rfl
  · exact h file hfile
  · exact hseen

section Lines

variable {follow : Include → IncludeSite → Script hash → Script hash}
  {inner : Include → IncludeSite → Script hash → List (ReadStep hash)}

theorem keepsKnown_readLine (hfollow : ∀ i site, KeepsKnown (follow i site) (inner i site))
    (file : SourceFile) (index : Nat) (p : FilePass) (line : Line) :
    KeepsKnown (fun s => (readLine follow file index p s line).2)
      (fun s => stepsOfLine inner file index p s line) := by
  intro s h
  rcases hrun : p.processLine s.symbols index line with ⟨processed, q, symbols⟩
  rcases hline : Include.ofLine? processed with _ | e | i
  · obtain ⟨hread, hsteps⟩ := readLine_of_text follow inner file hrun hline
    simp only [hread, hsteps, List.forall_mem_singleton]
    exact ⟨h, List.Subset.refl _, h⟩
  · obtain ⟨hread, hsteps⟩ := readLine_of_faulty follow inner file hrun hline
    simp only [hread, hsteps, List.forall_mem_singleton]
    exact ⟨h, List.Subset.refl _, h⟩
  · obtain ⟨hread, hsteps⟩ := readLine_of_include follow inner file hrun hline
    have hs : Known { s with symbols } := h
    obtain ⟨hfollowed, hseen, hmore⟩ :=
      hfollow i ⟨file, lineNumber index⟩ _ (hs.addReport file q.report)
    simp only [hread, hsteps, List.forall_mem_cons]
    exact ⟨hfollowed, hseen, h, hmore⟩

theorem keepsKnown_readLines (hfollow : ∀ i site, KeepsKnown (follow i site) (inner i site))
    (file : SourceFile) (index : Nat) (p : FilePass) (lines : List Line) :
    KeepsKnown (fun s => readLines follow file index p s lines)
      (fun s => stepsOfLines follow inner file index p s lines) := by
  intro s h
  induction lines generalizing index p s with
  | nil => exact ⟨h.addReport file p.finish, List.Subset.refl _, nofun⟩
  | cons line lines ih =>
    obtain ⟨hline, hseen, hsteps⟩ := keepsKnown_readLine hfollow file index p line s h
    obtain ⟨hrest, hlater, hmore⟩ := ih (index + 1) (readLine follow file index p s line).1 _ hline
    exact ⟨hrest, List.Subset.trans hseen hlater, List.forall_mem_append.mpr ⟨hsteps, hmore⟩⟩

end Lines

theorem keepsKnown_paths {load : Path → Script hash → Script hash}
    {inner : Path → Script hash → List (ReadStep hash)}
    (hload : ∀ path, KeepsKnown (load path) (inner path)) (paths : List Path) :
    KeepsKnown (fun s => paths.foldl (fun s path => load path s) s)
      (fun s => stepsOfPaths load inner s paths) := by
  induction paths with
  | nil => exact fun s h => ⟨h, List.Subset.refl _, nofun⟩
  | cons path paths ih =>
    intro s h
    obtain ⟨hfirst, hseen, hsteps⟩ := hload path s h
    obtain ⟨hrest, hlater, hmore⟩ := ih _ hfirst
    exact ⟨hrest, List.Subset.trans hseen hlater, List.forall_mem_append.mpr ⟨hsteps, hmore⟩⟩

theorem keepsKnown_follow (tree : FileTree) (room : Nat) (base : Path)
    {load : Path → Script hash → Script hash} {inner : Path → Script hash → List (ReadStep hash)}
    (hload : ∀ path, KeepsKnown (load path) (inner path)) (i : Include) (site : IncludeSite) :
    KeepsKnown (follow tree base load i site) (fun s => .directive room base i site s ::
      stepsOfPaths load inner s (Outline.targets tree base i)) := by
  intro s h
  obtain ⟨paths, -, htargets, hfollow⟩ | ⟨e, message, -, htargets, hfollow⟩ :=
    Outline.follow_cases tree base load i site
  · rw [htargets, hfollow, List.forall_mem_cons]
    obtain ⟨hknown, hseen, hsteps⟩ := keepsKnown_paths hload paths s h
    exact ⟨hknown, hseen, h, hsteps⟩
  · rw [htargets, hfollow, List.forall_mem_cons]
    exact ⟨h, List.Subset.refl _, h, nofun⟩

theorem keepsKnown_load (tree : FileTree) (root : Place) (room : Nat) (site : Option IncludeSite)
    (path : Path) :
    KeepsKnown (load tree root room site path : Script hash → Script hash)
      (steps tree root room site path) := by
  induction room generalizing site path with
  | zero => exact fun s h => ⟨h, List.Subset.refl _, List.forall_mem_singleton.mpr h⟩
  | succ room ih =>
    intro s h
    unfold load steps
    rcases tree.locate path with e | place
    · exact ⟨h, List.Subset.refl _, List.forall_mem_singleton.mpr h⟩
    dsimp only
    split
    · exact ⟨h, List.Subset.refl _, List.forall_mem_singleton.mpr h⟩
    have hnew : s.seen ⊆ hash (String.ofList place.path) :: s.seen := List.subset_cons_self ..
    have hseen : Known { s with seen := hash (String.ofList place.path) :: s.seen } :=
      fun file hfile => hnew (h file hfile)
    rcases tree.readText place with e | text
    · exact ⟨hseen, hnew, List.forall_mem_singleton.mpr h⟩
    have hfile := hseen.startFile root place List.mem_cons_self
    have hfollow (i : Include) (site : IncludeSite) :=
      keepsKnown_follow tree room (Place.path place.dropLast) (ih (some site)) i site
    obtain ⟨hlines, hlater, hsteps⟩ := keepsKnown_readLines hfollow (.at root place) 0 .start
      (Text.lines text.toList) _ hfile
    exact ⟨hlines, List.Subset.trans hnew hlater, List.forall_mem_cons.mpr ⟨h, hsteps⟩⟩

/-! Files that were read. -/

/-- The path leads to a file that was read. -/
def hasRead (s : Script hash) (tree : FileTree) (path : Path) : Bool :=
  (tree.locate path).toOption.any fun place =>
    s.files.any fun file => file.path == String.ofList place.path

theorem hasRead_iff {path : Path} : s.hasRead tree path = true ↔
    ∃ place, tree.locate path = .ok place ∧
      ∃ file ∈ s.files, file.path = String.ofList place.path := by
  unfold hasRead
  rcases tree.locate path with e | place
  · simp [Except.toOption]
  · simp only [Except.toOption, Option.any_some, Array.any_eq_true', beq_iff_eq, Except.ok.injEq,
      exists_eq_left']

/-- A file that was read is not read again, also after other files. -/
theorem Known.load_eq (h : s.Known) {path : Path} (hread : s.hasRead tree path = true)
    {t : Script hash} (hlater : s.seen ⊆ t.seen) (room : Nat) (site : Option IncludeSite) :
    t.load tree root (room + 1) site path = t := by
  obtain ⟨place, hplace, file, hfile, hpath⟩ := hasRead_iff.mp hread
  have hseen : t.seen.contains (hash (String.ofList place.path)) = true :=
    List.contains_iff_mem.mpr (hlater (hpath ▸ h file hfile))
  unfold load
  simp only [hplace, hseen, if_true]

theorem follow_of_asked {base : Path} {i : Include} {paths : List Path}
    (hasked : i.asked tree base = .ok paths) {load : Path → Script hash → Script hash}
    (site : IncludeSite) :
    s.follow tree base load i site = paths.foldl (fun s path => load path s) s := by
  obtain ⟨paths', hpaths, -, hfollow⟩ | ⟨e, message, herror, -, -⟩ :=
    Outline.follow_cases tree base load i site
  · rw [hpaths, Except.ok.injEq] at hasked
    exact hasked ▸ congrFun hfollow s
  · rw [herror] at hasked
    cases hasked

/-- Of the files at these paths those that were read at the start need not be loaded. -/
theorem Known.foldl_load (h : s.Known) (room : Nat) (site : Option IncludeSite)
    (paths : List Path) {t : Script hash} (ht : t.Known) (hlater : s.seen ⊆ t.seen) :
    paths.foldl (fun t path => t.load tree root (room + 1) site path) t =
      (paths.filter fun path => !s.hasRead tree path).foldl
        (fun t path => t.load tree root (room + 1) site path) t := by
  induction paths generalizing t with
  | nil => rfl
  | cons path paths ih =>
    rw [List.foldl_cons, List.filter_cons]
    by_cases hread : s.hasRead tree path = true
    · rw [h.load_eq hread hlater, ih ht hlater, hread]
      rfl
    · obtain ⟨hfirst, hseen, -⟩ := keepsKnown_load tree root (room + 1) site path t ht
      rw [if_pos (by simp [hread]), List.foldl_cons]
      exact ih hfirst (List.Subset.trans hlater hseen)

/-- An include line is followed in a script that has read some of the files that it asks for. Where
there is room for one more level of files, these are passed over: if there are no others, nothing at
all comes of it, and the text, the files, the definitions and the errors and warnings stay as they
are. Where there is none, each file that is asked for is an error, whether it was read or not, and
nothing else comes of it. -/
theorem follow_repeated {path : Path} {symbols : Symbols hash} {errorLimit : Nat} {room : Nat}
    {base : Path} {i : Include} {site : IncludeSite} {paths : List Path}
    (hstep : .directive room base i site s ∈ stepsOfScript tree path (start symbols errorLimit))
    (hasked : i.asked tree base = .ok paths) :
    let load := load tree (rootOf tree path) room (some site)
    let followed := s.follow tree base load i site
    (room ≠ 0 →
      followed = (paths.filter fun path => !s.hasRead tree path).foldl (fun s path => load path s) s ∧
        ((∀ path ∈ paths, s.hasRead tree path = true) → followed = s)) ∧
      (room = 0 → followed = paths.foldl (fun s path =>
        s.addLoadError .includeTooDeep (tooDeepMessage path) (some site)) s) := by
  intro load followed
  obtain ⟨-, -, hknown⟩ := keepsKnown_load tree (rootOf tree path) maxIncludeDepth none path _
    (known_start symbols errorLimit)
  have hs : s.Known := hknown _ hstep
  have hfollow : followed = paths.foldl (fun s path => load path s) s :=
    follow_of_asked hasked site
  cases room with
  | zero => exact ⟨fun h => absurd rfl h, fun _ => hfollow⟩
  | succ room =>
    have hothers := hfollow.trans (hs.foldl_load room (some site) paths hs (List.Subset.refl _))
    refine ⟨fun _ => ⟨hothers, fun hread => ?_⟩, nofun⟩
    have hnone : (paths.filter fun path => !s.hasRead tree path) = [] :=
      List.filter_eq_nil_iff.mpr fun path hpath => by simp [hread path hpath]
    rw [hothers, hnone, List.foldl_nil]

/-- A script that takes in itself. -/
def selfInclude : FileTree where
  entries := [(["a".toList], .file "#include \"a\"".toUTF8)]
  workingDirectory := []

theorem follow_repeated_self :
    let a : SourceFile := ⟨"/a", "a"⟩
    let i : Include := ⟨[], .file ['a']⟩
    let s : Script .standard :=
      ⟨⟨.empty, .empty⟩, #[], ⟨#[⟨0, a, 0⟩]⟩, #[a], [NameHash.standard "/a"], .new 0⟩
    let load := load selfInclude (rootOf selfInclude ['a']) 49 (some ⟨a, 1⟩)
    .directive 49 ['/'] i ⟨a, 1⟩ s ∈ stepsOfScript selfInclude ['a'] (start ⟨.empty, .empty⟩ 0) ∧
      i.asked selfInclude ['/'] = .ok [['/', 'a']] ∧
      s.hasRead selfInclude ['/', 'a'] = true ∧ s.follow selfInclude ['/'] load i ⟨a, 1⟩ = s := by
  intro a i s load
  have hstep : .directive 49 ['/'] i ⟨a, 1⟩ s ∈
      stepsOfScript selfInclude ['a'] (start ⟨.empty, .empty⟩ 0) := by
    have hsteps : (stepsOfScript selfInclude ['a'] (start ⟨.empty, .empty⟩ 0))[2]? =
        some (.directive 49 ['/'] i ⟨a, 1⟩ s) := by cbv
    exact List.mem_of_getElem? hsteps
  have hasked : i.asked selfInclude ['/'] = .ok [['/', 'a']] := by decide +kernel
  have hread : s.hasRead selfInclude ['/', 'a'] = true := by decide +kernel
  have hnothing := ((follow_repeated hstep hasked).1 (by decide)).2
  exact ⟨hstep, hasked, hread, hnothing (List.forall_mem_singleton.mpr hread)⟩

def ringName (k : Nat) : Path := Nat.toDigits 10 k

/-- So many scripts, each of which takes in the next one, and the last one the first. -/
def ring (n : Nat) : FileTree where
  entries := (List.range n).map fun k =>
    let text := "include ".toList ++ ringName ((k + 1) % n)
    ([ringName k ++ Include.extension], .file (String.ofList text).toUTF8)
  workingDirectory := []

/-- An include line asks for one file, which was read, in a file of the last level. -/
def asksTooDeep (tree : FileTree) : ReadStep hash → Bool
  | .directive 0 base i _ s =>
    match i.asked tree base with
    | .ok [path] => s.hasRead tree path
    | _ => false
  | _ => false

/-- In a ring of as many scripts as there are levels the last script asks for the first one once more,
and that is an error. -/
theorem follow_ring :
    let start : Script .standard := start ⟨.empty, .empty⟩ 0
    let tree := ring maxIncludeDepth
    let root := rootOf tree "0.lemon".toList
    (tree.entries.map fun e => NameHash.standard (String.ofList (Place.path e.1))).Nodup ∧
      ∃ base i site path s,
        .directive 0 base i site s ∈ stepsOfScript tree "0.lemon".toList start ∧
        i.asked tree base = .ok [path] ∧ s.hasRead tree path = true ∧
        (s.follow tree base (load tree root 0 (some site)) i site).diagnostics.errorCount =
          s.diagnostics.errorCount + 1 := by
  intro start tree root
  have hdistinct : (tree.entries.map fun e =>
      NameHash.standard (String.ofList (Place.path e.1))).Nodup := by decide +kernel
  have hany : (stepsOfScript tree "0.lemon".toList start).any (asksTooDeep tree) = true := by
    decide +kernel
  obtain ⟨e, he, hasks⟩ := List.any_eq_true.mp hany
  refine ⟨hdistinct, ?_⟩
  unfold asksTooDeep at hasks
  split at hasks
  · next base i site s =>
    split at hasks
    · next path hasked =>
      refine ⟨base, i, site, path, s, he, hasked, hasks, ?_⟩
      rw [follow_of_asked hasked]
      exact Diagnostics.errorCount_addError ..
    · cases hasks
  · cases hasks

end ScriptFront.Script
