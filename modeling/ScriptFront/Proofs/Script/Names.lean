import ScriptFront.Proofs.Preprocess.Names
import ScriptFront.Proofs.Script.Trace

/-! Reading a script sees of the table of names only what the table refuses. Scripts that are read
with tables that refuse the same texts of their expressions are the same. -/
namespace ScriptFront

variable {hash : NameHash} {W : Set String} {r : Interner hash}

/-- The texts that a step enters in the table of names. -/
def ReadStep.offered : ReadStep hash → List String
  | .path .. | .directive .. => []
  | .line pass _ text _ => (pass.evaluated? text).toList.flatMap textsOf

namespace Script

/-- The scripts are the same but for their tables of names, and for the texts `W` both tables are
those of `r`. -/
def Same (W : Set String) (r : Interner hash) (s t : Script hash) : Prop :=
  ∃ symbols, t = { s with symbols } ∧ s.symbols.Same W r symbols

/-- A part of reading takes scripts that are the same to scripts that are, where all texts that it
enters are among `W`. -/
def KeepsSame (W : Set String) (r : Interner hash) (run : Script hash → Script hash)
    (steps : Script hash → List (ReadStep hash)) : Prop :=
  ∀ s t, s.Same W r t → (∀ u ∈ (steps s).flatMap ReadStep.offered, u ∈ W) →
    (run s).Same W r (run t)

section Lines

variable {follow : Include → IncludeSite → Script hash → Script hash}
  {inner : Include → IncludeSite → Script hash → List (ReadStep hash)} {s t : Script hash}

/-- The passes after the line are the same, too. -/
theorem readLine_same (hW : Set.InjOn hash W)
    (hfollow : ∀ i site, KeepsSame W r (follow i site) (inner i site)) (file : SourceFile)
    (index : Nat) (p : FilePass) (line : Line) (h : s.Same W r t)
    (hoffered : ∀ u ∈ (stepsOfLine inner file index p s line).flatMap ReadStep.offered, u ∈ W) :
    ∃ q s' t', readLine follow file index p s line = (q, s') ∧
      readLine follow file index p t line = (q, t') ∧ s'.Same W r t' := by
  obtain ⟨symbols, rfl, h⟩ := h
  have hline (more : List (ReadStep hash))
      (hmore : ∀ u ∈ (ReadStep.line p index line s :: more).flatMap ReadStep.offered, u ∈ W) :
      (∀ text ∈ p.evaluated? line, ∀ u ∈ textsOf text, u ∈ W) ∧
        ∀ u ∈ more.flatMap ReadStep.offered, u ∈ W := by
    rw [List.flatMap_cons, List.forall_mem_append] at hmore
    refine ⟨fun text htext u hu => hmore.1 u ?_, hmore.2⟩
    exact List.mem_flatMap.mpr ⟨text, Option.mem_toList.mpr htext, hu⟩
  have hsame (hexpression : ∀ text ∈ p.evaluated? line, ∀ u ∈ textsOf text, u ∈ W) :=
    FilePass.processLine_same hW h p hexpression index
  rcases hrun : p.processLine s.symbols index line with ⟨processed, q, before⟩
  rcases hinclude : Include.ofLine? processed with _ | e | i
  · obtain ⟨hread, hsteps⟩ := readLine_of_text follow inner file hrun hinclude
    rw [hsteps] at hoffered
    obtain ⟨out, q', s', t', hs, ht, h'⟩ := hsame (hline [] hoffered).1
    cases hrun.symm.trans hs
    exact ⟨q, _, _, hread, (readLine_of_text follow inner file ht hinclude).1, t', rfl, h'⟩
  · obtain ⟨hread, hsteps⟩ := readLine_of_faulty follow inner file hrun hinclude
    rw [hsteps] at hoffered
    obtain ⟨out, q', s', t', hs, ht, h'⟩ := hsame (hline [] hoffered).1
    cases hrun.symm.trans hs
    exact ⟨q, _, _, hread, (readLine_of_faulty follow inner file ht hinclude).1, t', rfl, h'⟩
  · obtain ⟨hread, hsteps⟩ := readLine_of_include follow inner file hrun hinclude
    rw [hsteps] at hoffered
    obtain ⟨hexpression, hmore⟩ := hline _ hoffered
    obtain ⟨out, q', s', t', hs, ht, h'⟩ := hsame hexpression
    cases hrun.symm.trans hs
    obtain ⟨after, hafter, h''⟩ := hfollow i ⟨file, lineNumber index⟩ _
      ({ s with symbols := t' }.addReport file q.report) ⟨t', rfl, h'⟩ hmore
    refine ⟨_, _, _, hread, (readLine_of_include follow inner file ht hinclude).1, after, ?_, h''⟩
    exact congrArg (·.startInterval file (index + 1)) hafter

theorem keepsSame_readLines (hW : Set.InjOn hash W)
    (hfollow : ∀ i site, KeepsSame W r (follow i site) (inner i site)) (file : SourceFile)
    (index : Nat) (p : FilePass) (lines : List Line) :
    KeepsSame W r (fun s => readLines follow file index p s lines)
      (fun s => stepsOfLines follow inner file index p s lines) := by
  intro s t h hoffered
  induction lines generalizing index p s t with
  | nil =>
    obtain ⟨symbols, rfl, h⟩ := h
    exact ⟨symbols, rfl, h⟩
  | cons line lines ih =>
    simp only [stepsOfLines, List.flatMap_append, List.forall_mem_append] at hoffered
    obtain ⟨q, s', t', hs, ht, h'⟩ := readLine_same hW hfollow file index p line h hoffered.1
    rw [hs] at hoffered
    simp only [readLines, hs, ht]
    exact ih (index + 1) q s' t' h' hoffered.2

end Lines

theorem keepsSame_paths {load : Path → Script hash → Script hash}
    {inner : Path → Script hash → List (ReadStep hash)}
    (hload : ∀ path, KeepsSame W r (load path) (inner path)) (paths : List Path) :
    KeepsSame W r (fun s => paths.foldl (fun s path => load path s) s)
      (fun s => stepsOfPaths load inner s paths) := by
  induction paths with
  | nil => exact fun s t h _ => h
  | cons path paths ih =>
    intro s t h hoffered
    simp only [stepsOfPaths, List.flatMap_append, List.forall_mem_append] at hoffered
    exact ih _ _ (hload path s t h hoffered.1) hoffered.2

theorem keepsSame_follow (tree : FileTree) (room : Nat) (base : Path)
    {load : Path → Script hash → Script hash}
    {inner : Path → Script hash → List (ReadStep hash)}
    (hload : ∀ path, KeepsSame W r (load path) (inner path)) (i : Include) (site : IncludeSite) :
    KeepsSame W r (follow tree base load i site) (fun s => .directive room base i site s ::
      stepsOfPaths load inner s (Outline.targets tree base i)) := by
  obtain ⟨paths, -, htargets, hfollow⟩ | ⟨e, message, -, htargets, hfollow⟩ :=
    Outline.follow_cases tree base load i site
  · rw [htargets, hfollow]
    -- the step itself enters no text
    exact fun s t h hoffered => keepsSame_paths hload paths s t h hoffered
  · rw [htargets, hfollow]
    rintro s t ⟨symbols, rfl, h⟩ -
    exact ⟨symbols, rfl, h⟩

/-- Reading takes scripts that are the same to scripts that are. -/
theorem keepsSame_load (hW : Set.InjOn hash W) (tree : FileTree) (root : Place) (room : Nat)
    (site : Option IncludeSite) (path : Path) :
    KeepsSame W r (load tree root room site path) (steps tree root room site path) := by
  induction room generalizing site path with
  | zero =>
    rintro s t ⟨symbols, rfl, h⟩ -
    exact ⟨symbols, rfl, h⟩
  | succ room ih =>
    rintro s t ⟨symbols, rfl, h⟩
    unfold load steps
    rcases tree.locate path with e | place
    · exact fun _ => ⟨symbols, rfl, h⟩
    by_cases hseen : s.seen.contains (hash (String.ofList place.path)) = true
    · simp only [hseen, if_true]
      exact fun _ => ⟨symbols, rfl, h⟩
    · simp only [hseen]
      rcases tree.readText place with e | text
      · exact fun _ => ⟨symbols, rfl, h⟩
      have hfollow (i : Include) (site : IncludeSite) :=
        keepsSame_follow tree room (Place.path place.dropLast) (ih (some site)) i site
      exact keepsSame_readLines hW hfollow (.at root place) 0 .start (Text.lines text.toList) _ _
        ⟨symbols, rfl, h⟩

end Script
end ScriptFront
