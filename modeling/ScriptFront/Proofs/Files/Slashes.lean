import ScriptFront.Files.Tree
import Mathlib.Data.List.Basic

/-! Paths that differ only in how often a slash is repeated. They lead to the same place in every
file tree, and it makes no difference whether a path is joined as a whole or its directory first
and then its last name. -/
namespace ScriptFront

namespace Path

/-- A character before a path, but for a slash before a slash. -/
def squeezeCons (c : Char) (p : Path) : Path := if c = '/' ∧ p.head? = some '/' then p else c :: p

/-- The path with one slash in the place of each run of slashes. -/
def squeeze (p : Path) : Path := p.foldr squeezeCons []

/-- The paths are the same but for repeated slashes. -/
def SameWay (p q : Path) : Prop := squeeze p = squeeze q

instance (p q : Path) : Decidable (SameWay p q) := inferInstanceAs (Decidable (_ = _))

theorem squeeze_append (p q : Path) : squeeze (p ++ q) = p.foldr squeezeCons (squeeze q) :=
  List.foldr_append

theorem squeezeCons_slash (p : Path) (h : p.head? ≠ some '/') : squeezeCons '/' p = '/' :: p :=
  if_neg fun hc => h hc.2

theorem head?_squeezeCons (c : Char) (p : Path) : (squeezeCons c p).head? = some c := by
  unfold squeezeCons
  split
  · next h => rw [h.2, h.1]
  · rfl

theorem squeezeCons_slash_twice (p : Path) :
    squeezeCons '/' (squeezeCons '/' p) = squeezeCons '/' p :=
  if_pos ⟨rfl, head?_squeezeCons '/' p⟩

theorem head?_squeeze (p : Path) : (squeeze p).head? = p.head? := by
  cases p with
  | nil => rfl
  | cons c p => exact head?_squeezeCons c (squeeze p)

theorem mem_squeeze {c : Char} (hc : c ≠ '/') (p : Path) : c ∈ squeeze p ↔ c ∈ p := by
  induction p with
  | nil => exact Iff.rfl
  | cons d p ih =>
    change c ∈ squeezeCons d (squeeze p) ↔ _
    unfold squeezeCons
    split
    · next h => rw [ih, List.mem_cons, h.1, or_iff_right hc]
    · rw [List.mem_cons, List.mem_cons, ih]

theorem squeeze_of_notMem {p : Path} (h : '/' ∉ p) : squeeze p = p := by
  induction p with
  | nil => rfl
  | cons c p ih =>
    have hc : c ≠ '/' := fun hc => h (hc ▸ List.mem_cons_self)
    change squeezeCons c (squeeze p) = _
    rw [ih fun hp => h (List.mem_cons_of_mem c hp)]
    exact if_neg fun hcond => hc hcond.1

namespace SameWay

variable {p q : Path}

theorem append_left (h : SameWay p q) (before : Path) : SameWay (before ++ p) (before ++ q) := by
  unfold SameWay at h ⊢
  rw [squeeze_append, squeeze_append, h]

end SameWay

theorem sameWay_slashes (p : Path) : SameWay ('/' :: '/' :: p) ('/' :: p) :=
  squeezeCons_slash_twice (squeeze p)

/-! Joining. -/

theorem join_of_absolute {left right : Path} (h : right.isAbsolute = true) :
    left.join right = right := if_pos h

/-- A relative path stands behind the directory, which a slash ends. -/
theorem join_of_relative {left right : Path} (h : right.isAbsolute = false) :
    left.join right = left.join [] ++ right := by
  have hempty : isAbsolute [] = false := rfl
  unfold join
  rw [h, hempty]
  simp only [Bool.false_eq_true, if_false, List.append_nil]
  split
  · rfl
  · rw [List.append_assoc, List.singleton_append]

theorem join_nil_of_slash {left : Path} (h : left = [] ∨ left.getLast? = some '/') :
    left.join [] = left := by
  simpa [join, isAbsolute] using fun hne => h.resolve_left hne

theorem join_nil_of_no_slash {left : Path} (h : ¬(left = [] ∨ left.getLast? = some '/')) :
    left.join [] = left ++ ['/'] := by
  simp [join, isAbsolute, h]

theorem join_nil_append {left : Path} (hleft : left ≠ []) (name : Path) :
    SameWay (left.join [] ++ name) (left ++ '/' :: name) := by
  by_cases h : left.getLast? = some '/'
  · obtain ⟨before, rfl⟩ := List.getLast?_eq_some_iff.mp h
    rw [join_nil_of_slash (.inr h), List.append_assoc, List.append_assoc]
    exact (SameWay.append_left (sameWay_slashes name) before).symm
  · have hslash : ¬(left = [] ∨ left.getLast? = some '/') := not_or.mpr ⟨hleft, h⟩
    rw [join_nil_of_no_slash hslash, List.append_assoc, List.singleton_append]
    exact rfl

theorem isAbsolute_of_notMem {p : Path} (h : '/' ∉ p) : p.isAbsolute = false := by
  cases p with
  | nil => rfl
  | cons c p =>
    have hc : c ≠ '/' := fun hc => h (hc ▸ List.mem_cons_self)
    simpa [isAbsolute] using hc

theorem isAbsolute_append {p : Path} (hp : p ≠ []) (q : Path) :
    (p ++ q).isAbsolute = p.isAbsolute := by
  cases p with
  | nil => exact absurd rfl hp
  | cons c p => rfl

theorem join_ne_nil {left right : Path} (h : right ≠ []) : left.join right ≠ [] := by
  unfold join
  split
  · exact h
  split
  · simp [h]
  · simp

/-- The empty path stands for the directory itself. -/
theorem join_nil_join {left right : Path} (h : right.isAbsolute = false) :
    (left.join []).join right = left.join right := by
  have hdirectory : (left.join []).join [] = left.join [] := by
    by_cases hslash : left = [] ∨ left.getLast? = some '/'
    · rw [join_nil_of_slash hslash, join_nil_of_slash hslash]
    · rw [join_nil_of_no_slash hslash]
      exact join_nil_of_slash (.inr List.getLast?_concat)
  rw [join_of_relative h, hdirectory, ← join_of_relative h]

/-- A directory and a name in it may be joined one after the other. -/
theorem join_join_sameWay (base : Path) {directory name : Path} (hdirectory : directory ≠ [])
    (hname : '/' ∉ name) :
    SameWay ((base.join directory).join name) (base.join (directory ++ '/' :: name)) := by
  have hwhole : base.join (directory ++ '/' :: name) = base.join directory ++ '/' :: name := by
    by_cases h : directory.isAbsolute = true
    · have h' : (directory ++ '/' :: name).isAbsolute = true := by
        rw [isAbsolute_append hdirectory, h]
      rw [join_of_absolute h, join_of_absolute h']
    · have h : directory.isAbsolute = false := Bool.eq_false_iff.mpr h
      have h' : (directory ++ '/' :: name).isAbsolute = false := by
        rw [isAbsolute_append hdirectory, h]
      rw [join_of_relative h, join_of_relative h', List.append_assoc]
  rw [hwhole, join_of_relative (isAbsolute_of_notMem hname)]
  exact join_nil_append (join_ne_nil hdirectory) name

/-! The root. -/

/-- The path is that of the root. -/
def IsRoot (p : Path) : Prop := p ≠ [] ∧ ∀ c ∈ p, c = '/'

instance (p : Path) : Decidable p.IsRoot :=
  @instDecidableAnd (p ≠ []) _ inferInstance (List.decidableBAll _ p)

theorem length_le_foldr_squeezeCons (p q : Path) : q.length ≤ (p.foldr squeezeCons q).length := by
  induction p with
  | nil => exact Nat.le_refl _
  | cons c p ih =>
    rw [List.foldr_cons, squeezeCons]
    split
    · exact ih
    · rw [List.length_cons]
      omega

/-- Only slashes can be squeezed into what stands behind them. -/
theorem eq_slash_of_length_foldr {p q : Path} (h : (p.foldr squeezeCons q).length = q.length) :
    ∀ c ∈ p, c = '/' := by
  induction p with
  | nil => exact fun c hc => absurd hc List.not_mem_nil
  | cons c p ih =>
    have hle := length_le_foldr_squeezeCons p q
    rw [List.foldr_cons, squeezeCons] at h
    split at h
    · next hc => exact List.forall_mem_cons.mpr ⟨hc.1, ih h⟩
    · rw [List.length_cons] at h
      omega

theorem foldr_squeezeCons_of_slashes {p : Path} (h : ∀ c ∈ p, c = '/') (q : Path) :
    p.foldr squeezeCons (squeezeCons '/' q) = squeezeCons '/' q := by
  induction p with
  | nil => rfl
  | cons c p ih =>
    obtain ⟨rfl, hp⟩ := List.forall_mem_cons.mp h
    rw [List.foldr_cons, ih hp, squeezeCons_slash_twice]

/-- A name in the directory and the same name in the root are two paths, unless the directory is the
root. -/
theorem join_sameWay_rooted_iff {base name : Path} (hname : '/' ∉ name) :
    SameWay (base.join name) ('/' :: name) ↔ base.IsRoot := by
  have hhead : name.head? ≠ some '/' := fun h => hname (List.mem_of_mem_head? h)
  have hrooted : squeeze ('/' :: name) = '/' :: name := by
    change squeezeCons '/' (squeeze name) = _
    rw [squeeze_of_notMem hname, squeezeCons_slash name hhead]
  by_cases hbase : base = []
  · have hjoin : base.join name = name := by
      rw [hbase, join_of_relative (isAbsolute_of_notMem hname)]
      rfl
    have hlength : name ≠ '/' :: name := fun h => by
      have := congrArg List.length h
      simp at this
    rw [SameWay, hjoin, hrooted, squeeze_of_notMem hname]
    exact iff_of_false hlength fun h => h.1 hbase
  · have hjoin : SameWay (base.join name) (base ++ '/' :: name) := by
      rw [join_of_relative (isAbsolute_of_notMem hname)]
      exact join_nil_append hbase name
    have hsqueeze : squeeze (base.join name) = base.foldr squeezeCons ('/' :: name) := by
      rw [hjoin, squeeze_append, hrooted]
    rw [SameWay, hsqueeze, hrooted]
    constructor
    · intro h
      exact ⟨hbase, eq_slash_of_length_foldr (congrArg List.length h)⟩
    · intro h
      have hslashes := foldr_squeezeCons_of_slashes h.2 name
      rwa [squeezeCons_slash name hhead] at hslashes

end Path

/-! Following paths. -/

namespace FileTree

open ScriptFront.Path (squeeze squeezeCons segments SameWay)

variable (t : FileTree)

/-- A repeated slash stands for a step that leads nowhere. -/
theorem foldlM_enter_nil_cons {names : List Path} (h : names ≠ []) (here : Place) :
    ([] :: names).foldlM t.enter here = names.foldlM t.enter here := by
  obtain ⟨name, more, rfl⟩ := List.exists_cons_of_ne_nil h
  by_cases hdirectory : t.isDirectory here = true
  · have hstay : t.enter here [] = .ok here := by simp [enter, hdirectory]
    rw [List.foldlM_cons, hstay]
    rfl
  · have hfails (name : Path) : t.enter here name = .error .notDirectory := by
      simp [enter, hdirectory]
    rw [List.foldlM_cons, List.foldlM_cons, hfails, hfails]
    rfl

/-- Of the parts of two paths that are the same but for repeated slashes, the first ones are the
same and the others lead from everywhere to the same place. -/
theorem exists_segments_squeeze (p : Path) :
    ∃ name more more', segments p = name :: more ∧ segments (squeeze p) = name :: more' ∧
      ∀ here, more.foldlM t.enter here = more'.foldlM t.enter here := by
  induction p with
  | nil => exact ⟨[], [], [], rfl, rfl, fun _ => rfl⟩
  | cons c p ih =>
    obtain ⟨name, more, more', hp, hsqueeze, hfold⟩ := ih
    change ∃ name more more', segments (c :: p) = name :: more ∧
      segments (squeezeCons c (squeeze p)) = name :: more' ∧ _
    by_cases hc : c = '/'
    · subst hc
      have hfirst : segments ('/' :: p) = [] :: name :: more := by rw [segments, if_pos rfl, hp]
      by_cases hhead : (squeeze p).head? = some '/'
      · -- the second slash begins another part, which comes behind the step that leads nowhere
        obtain ⟨q, rfl⟩ : ∃ q, p = '/' :: q :=
          List.head?_eq_some_iff.mp ((Path.head?_squeeze p).symm.trans hhead)
        rw [segments, if_pos rfl] at hp
        obtain ⟨rfl, rfl⟩ := List.cons.inj hp
        refine ⟨[], [] :: segments q, more', hfirst, ?_, fun here => ?_⟩
        · rw [squeezeCons, if_pos ⟨rfl, hhead⟩, hsqueeze]
        · rw [t.foldlM_enter_nil_cons (Path.segments_ne_nil q), hfold]
      · refine ⟨[], name :: more, name :: more', hfirst, ?_, fun here => ?_⟩
        · rw [Path.squeezeCons_slash _ hhead, segments, if_pos rfl, hsqueeze]
        · rw [List.foldlM_cons, List.foldlM_cons]
          exact congrArg _ (funext hfold)
    · refine ⟨c :: name, more, more', ?_, ?_, hfold⟩
      · rw [segments, if_neg hc, hp]
      · rw [squeezeCons, if_neg fun h => hc h.1, segments, if_neg hc, hsqueeze]

theorem locate_squeeze (p : Path) : t.locate (squeeze p) = t.locate p := by
  have hcheck : checkPath (squeeze p) = checkPath p := by
    have hnul : (squeeze p).contains '\x00' = p.contains '\x00' := by
      rw [Bool.eq_iff_iff, List.contains_iff_mem, List.contains_iff_mem]
      exact Path.mem_squeeze (by decide) p
    have hempty : (squeeze p).isEmpty = p.isEmpty := by
      rw [Bool.eq_iff_iff, List.isEmpty_iff, List.isEmpty_iff, ← List.head?_eq_none_iff,
        ← List.head?_eq_none_iff, Path.head?_squeeze]
    rw [checkPath, checkPath, hnul, hempty]
  have horigin : t.origin (squeeze p) = t.origin p := by
    rw [origin, origin, Path.isAbsolute, Path.isAbsolute, Path.head?_squeeze]
  obtain ⟨name, more, more', hp, hsqueeze, hfold⟩ := t.exists_segments_squeeze p
  have hwalk (here : Place) :
      (squeeze p).segments.foldlM t.enter here = p.segments.foldlM t.enter here := by
    rw [hp, hsqueeze, List.foldlM_cons, List.foldlM_cons]
    exact congrArg _ (funext fun here => (hfold here).symm)
  rw [locate, locate, hcheck, horigin, hwalk]

/-- Repeated slashes make no difference to where a path leads, nor to why it leads nowhere. -/
theorem locate_eq_of_sameWay {p q : Path} (h : SameWay p q) : t.locate p = t.locate q := by
  rw [← t.locate_squeeze p, h, t.locate_squeeze]

end FileTree
end ScriptFront
