import ScriptFront.Proofs.Files.Slashes
import ScriptFront.Proofs.Preprocess.IncludeLines
import ScriptFront.Script

/-! The file that a quoted include path stands for. Main statement: the path that is opened is the
one that the whole include path gives when it is joined to the directory of the script, up to
repeated slashes. The exception is a file in the root, which is looked for in the directory of the
script. -/
namespace ScriptFront

namespace Path

theorem forall_mem_reverse_ne_slash {p : Path} (h : '/' ∉ p) :
    ∀ c ∈ p.reverse, (c != '/') = true := by
  intro c hc
  have hne : c ≠ '/' := fun e => h (e ▸ List.mem_reverse.mp hc)
  simpa using hne

theorem splitLast_of_notMem {p : Path} (h : '/' ∉ p) : splitLast p = ([], p) := by
  have hname : p.reverse.takeWhile (· != '/') = p.reverse :=
    List.takeWhile_eq_self_iff.mpr (forall_mem_reverse_ne_slash h)
  rw [splitLast, hname, List.reverse_reverse, List.drop_eq_nil_of_le (Nat.le_succ _)]
  rfl

theorem splitLast_append (directory : Path) {name : Path} (h : '/' ∉ name) :
    splitLast (directory ++ '/' :: name) = (directory, name) := by
  have hreverse :
      (directory ++ '/' :: name).reverse = name.reverse ++ '/' :: directory.reverse := by simp
  have hname : (name.reverse ++ '/' :: directory.reverse).takeWhile (· != '/') = name.reverse := by
    rw [List.takeWhile_append_of_pos (forall_mem_reverse_ne_slash h)]
    simp
  have hdirectory : (name.reverse ++ '/' :: directory.reverse).drop (name.reverse.length + 1) =
      directory.reverse := by
    rw [List.drop_append, List.drop_eq_nil_of_le (Nat.le_succ _), Nat.add_sub_cancel_left]
    rfl
  rw [splitLast, hreverse, hname, hdirectory, List.reverse_reverse, List.reverse_reverse]

theorem exists_last_slash {p : Path} (h : '/' ∈ p) :
    ∃ directory name, p = directory ++ '/' :: name ∧ '/' ∉ name := by
  obtain ⟨behind, before, hreverse, hbehind⟩ :=
    List.eq_append_cons_of_mem (List.mem_reverse.mpr h)
  refine ⟨before.reverse, behind.reverse, ?_, fun hc => hbehind (List.mem_reverse.mp hc)⟩
  rw [← List.reverse_reverse p, hreverse, List.reverse_append, List.reverse_cons, List.append_assoc,
    List.singleton_append]

/-- The path is that of a file in the root. -/
def IsRooted (p : Path) : Prop := ∃ name, p = '/' :: name ∧ '/' ∉ name

theorem not_isRooted_of_notMem {p : Path} (h : '/' ∉ p) : ¬p.IsRooted := by
  rintro ⟨name, rfl, -⟩
  exact h List.mem_cons_self

theorem isRooted_append {directory name : Path} (h : '/' ∉ name) :
    (directory ++ '/' :: name).IsRooted ↔ directory = [] := by
  constructor
  · rintro ⟨name', hpath, hname'⟩
    by_contra hdirectory
    obtain ⟨c, more, rfl⟩ := List.exists_cons_of_ne_nil hdirectory
    obtain ⟨-, htail⟩ := List.cons.inj hpath
    have hslash : '/' ∈ more ++ '/' :: name := by simp
    exact hname' (htail ▸ hslash)
  · rintro rfl
    exact ⟨name, rfl, h⟩

end Path

namespace Include

open ScriptFront.Path (withSlashes splitLast)

/-- The line is a directive that takes in what a quoted path stands for. -/
def Quotes (line : Line) (path : Path) : Prop :=
  ∃ rest s more, afterWord? line = some rest ∧
    Text.trim (Text.Comment.statement rest).text = '"' :: s ∧
    Text.Quoted.decode? s = some (path, more)

/-- The path stands for one file, and not for all scripts of a directory. -/
def NamesFile (path : Path) : Prop :=
  (splitLast (withSlashes path)).2 ≠ [] ∧ (splitLast (withSlashes path)).2 ≠ ['?']

/-- The path by which the file is opened: the directory is joined to that of the script, and the
name to both. -/
def opened (base path : Path) : Path :=
  (base.join (splitLast (withSlashes path)).1).join (splitLast (withSlashes path)).2

variable {line : Line} {path : Path}

theorem Quotes.ofLine?_eq (h : Quotes line path) : ofLine? line = some (ofPath path []) := by
  obtain ⟨rest, s, more, hrest, htext, hdecode⟩ := h
  have hmark : (line.dropWhile Text.isIndent).head? = some '#' := by
    unfold afterWord? at hrest
    split at hrest
    · next hline =>
      rw [hline]
      rfl
    · cases hrest
  rw [ofLine?, after?_older_of_mark hmark, hrest]
  simp only [Option.map_some, quoted, htext, hdecode]

theorem NamesFile.ofPath_eq (h : NamesFile path) :
    ofPath path [] =
      .ok ⟨(splitLast (withSlashes path)).1, .file (splitLast (withSlashes path)).2⟩ := by
  obtain ⟨hne, hwild⟩ := h
  simp only [ofPath, List.isEmpty_iff, hne, hwild, if_false, List.append_nil]

/-- Of a file in the root only the name is left. -/
theorem opened_of_rooted (base : Path) {name : Path} (hpath : withSlashes path = '/' :: name)
    (hname : '/' ∉ name) : opened base path = base.join name := by
  have hsplit : splitLast (withSlashes path) = ([], name) := by
    rw [hpath]
    exact Path.splitLast_append [] hname
  rw [opened, hsplit]
  exact Path.join_nil_join (Path.isAbsolute_of_notMem hname)

theorem opened_sameWay_iff (base path : Path) :
    (opened base path).SameWay (base.join (withSlashes path)) ↔
      ((withSlashes path).IsRooted → base.IsRoot) := by
  by_cases hmem : '/' ∈ withSlashes path
  · obtain ⟨directory, name, hpath, hname⟩ := Path.exists_last_slash hmem
    have hrooted : (withSlashes path).IsRooted ↔ directory = [] := by
      rw [hpath]
      exact Path.isRooted_append hname
    by_cases hdirectory : directory = []
    · have hpath' : withSlashes path = '/' :: name := by
        rw [hpath, hdirectory]
        rfl
      have hjoin : base.join ('/' :: name) = '/' :: name := Path.join_of_absolute rfl
      rw [opened_of_rooted base hpath' hname, imp_iff_right (hrooted.mpr hdirectory), hpath', hjoin]
      exact Path.join_sameWay_rooted_iff hname
    · apply iff_of_true
      · rw [opened, hpath, Path.splitLast_append directory hname]
        exact Path.join_join_sameWay base hdirectory hname
      · exact fun h => absurd (hrooted.mp h) hdirectory
  · apply iff_of_true
    · have hrelative : (withSlashes path).isAbsolute = false := Path.isAbsolute_of_notMem hmem
      rw [opened, Path.splitLast_of_notMem hmem, Path.join_nil_join hrelative]
      exact rfl
    · exact fun h => absurd h (Path.not_isRooted_of_notMem hmem)

/-- The file that a quoted path names is opened by the directory and the name one after the other.
That is as good as the whole path joined to the directory of the script, for every path but that
of a file in the root: of such a file only the name is left, as if it were in the directory of the
script. Two paths of other files are opened as one only if they are one. -/
theorem follow_quoted (hash : NameHash) (base : Path) (hquotes : Quotes line path)
    (hfile : NamesFile path) :
    (∃ i, ofLine? line = some (.ok i) ∧
      ∀ tree (load : Path → Script hash → Script hash) site s,
        Script.follow tree base load i site s = load (opened base path) s) ∧
    ((opened base path).SameWay (base.join (withSlashes path)) ↔
      ((withSlashes path).IsRooted → base.IsRoot)) ∧
    (((withSlashes path).IsRooted → base.IsRoot) → ∀ tree : FileTree,
      tree.locate (opened base path) = tree.locate (base.join (withSlashes path))) ∧
    (∀ name, withSlashes path = '/' :: name → '/' ∉ name → opened base path = base.join name) ∧
    ∀ other, ¬(withSlashes path).IsRooted → ¬(withSlashes other).IsRooted →
      ((opened base path).SameWay (opened base other) ↔
        (base.join (withSlashes path)).SameWay (base.join (withSlashes other))) := by
  let i : Include := ⟨(splitLast (withSlashes path)).1, .file (splitLast (withSlashes path)).2⟩
  refine ⟨⟨i, ?_, fun tree load site s => rfl⟩, opened_sameWay_iff base path, fun h tree => ?_,
    fun name hpath hname => ?_, fun other hpath hother => ?_⟩
  · rw [hquotes.ofLine?_eq, hfile.ofPath_eq]
  · apply tree.locate_eq_of_sameWay
    exact (opened_sameWay_iff base path).mpr h
  · exact opened_of_rooted base hpath hname
  · have hsame : (opened base path).SameWay (base.join (withSlashes path)) :=
      (opened_sameWay_iff base path).mpr fun h => absurd h hpath
    have hsame' : (opened base other).SameWay (base.join (withSlashes other)) :=
      (opened_sameWay_iff base other).mpr fun h => absurd h hother
    unfold Path.SameWay at hsame hsame' ⊢
    rw [hsame, hsame']

theorem follow_quoted_repeated_slash :
    let line := "#include \"sub\\\\lib//x.lemon\" // both".toList
    let path : Path := "sub\\lib//x.lemon".toList
    let base : Path := "/scripts".toList
    Quotes line path ∧ NamesFile path ∧ opened base path = "/scripts/sub/lib/x.lemon".toList ∧
      base.join (withSlashes path) = "/scripts/sub/lib//x.lemon".toList ∧
      ∀ tree : FileTree,
        tree.locate (opened base path) = tree.locate (base.join (withSlashes path)) := by
  intro line path base
  have hquotes : Quotes line path :=
    ⟨" \"sub\\\\lib//x.lemon\" // both".toList, "sub\\\\lib//x.lemon\"".toList, [], by decide,
      by decide +kernel, by decide⟩
  have hfile : NamesFile path := ⟨by decide, by decide⟩
  obtain ⟨-, -, hplace, -, -⟩ := follow_quoted (fun _ => 0) base hquotes hfile
  have hrooted : ¬(withSlashes path).IsRooted := by
    rintro ⟨name, hpath, -⟩
    cases hpath
  exact ⟨hquotes, hfile, by decide, by decide, hplace fun h => absurd h hrooted⟩

/-- In `/scripts`, `/x.lemon` is taken for the file beside the script, and the file in the root is
never read. -/
theorem follow_rooted :
    let tree := FileTree.empty.insert ["x.lemon".toList] (.file ByteArray.empty)
      |>.insert ["scripts".toList, "x.lemon".toList] (.file ByteArray.empty)
    let base : Path := "/scripts".toList
    let path : Path := "/x.lemon".toList
    ofLine? "#include \"/x.lemon\"".toList = ofLine? "#include \"x.lemon\"".toList ∧
      ofLine? "#include \"/x.lemon\"".toList = some (.ok ⟨[], .file "x.lemon".toList⟩) ∧
      opened base path = "/scripts/x.lemon".toList ∧
      base.join (withSlashes path) = "/x.lemon".toList ∧
      tree.locate (opened base path) = .ok ["scripts".toList, "x.lemon".toList] ∧
      tree.locate (base.join (withSlashes path)) = .ok ["x.lemon".toList] := by
  decide +kernel

end Include
end ScriptFront
