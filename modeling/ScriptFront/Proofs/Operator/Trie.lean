import ScriptFront.Operator.Trie
import Mathlib.Data.List.Induction

/-! What the trie of the operators stands for: the words that were entered, each at the end of its
path. A lookup finds the longest of them. -/
namespace ScriptFront.OperatorTrie

open Operator (Found)

variable {t t' : OperatorTrie} {b c : UInt8} {i j n p : Nat}

/-! The search along siblings. -/

theorem sibling?_eq (t : OperatorTrie) (b : UInt8) (i : Nat) :
    t.sibling? b i = t.nodes[i]?.bind fun node =>
      if node.byte = b then some i else node.nextSibling.bind (t.sibling? b) := by
  rw [sibling?]
  by_cases hi : i < t.nodes.size
  · rw [dif_pos hi, Array.getElem?_eq_getElem hi, Option.bind_some]
    split
    · rfl
    · split <;> simp_all
  · rw [dif_neg hi, Array.getElem?_eq_none (Nat.le_of_not_lt hi), Option.bind_none]

/-- The search sees only the bytes and the siblings of the nodes up to `i`. -/
theorem sibling?_congr
    (h : ∀ j ≤ i, t'.nodes[j]?.map (fun node => (node.byte, node.nextSibling)) =
      t.nodes[j]?.map fun node => (node.byte, node.nextSibling)) :
    t'.sibling? b i = t.sibling? b i := by
  induction i using Nat.strongRecOn with
  | ind i ih =>
    have hnode := h i (Nat.le_refl i)
    rw [sibling?_eq, sibling?_eq]
    rcases hi : t.nodes[i]? with _ | node <;> rcases hi' : t'.nodes[i]? with _ | node'
    · rfl
    · simp [hi, hi'] at hnode
    · simp [hi, hi'] at hnode
    · rw [hi, hi'] at hnode
      obtain ⟨hbyte, hsibling⟩ := Prod.mk.inj (Option.some.inj hnode)
      simp only [Option.bind_some, hbyte, hsibling]
      split
      · rfl
      · refine Option.bind_congr fun j hj => ?_
        obtain ⟨hsize, rfl⟩ := Array.getElem?_eq_some_iff.mp hi
        have hlt := t.sibling_lt i hsize j hj
        exact ih j hlt fun k hk => h k (Nat.le_trans hk (Nat.le_of_lt hlt))

@[simp] theorem size_grow (parent : Option Nat) :
    (t.grow parent b).nodes.size = t.nodes.size + 1 := by
  cases parent with
  | none =>
    simp only [grow, setRoot]
    split <;> simp [push]
  | some p => simp [grow, push, setFirstChild]

theorem sibling?_grow (parent : Option Nat) (hi : i < t.nodes.size) :
    (t.grow parent b).sibling? c i = t.sibling? c i := by
  refine sibling?_congr fun j hj => ?_
  have hj : j ≠ t.nodes.size := by omega
  cases parent with
  | none =>
    simp only [grow, setRoot]
    split <;> simp [push, Array.getElem?_push, hj]
  | some p =>
    simp only [grow, push, setFirstChild, Array.getElem?_modify, Array.getElem?_push, if_neg hj]
    split
    · rw [Option.map_map]
      rfl
    · rfl

theorem firstChild?_push (sibling : Option Nat) (h : ∀ j ∈ sibling, j < t.nodes.size) (i : Nat) :
    (t.push b sibling h).firstChild? i = t.firstChild? i := by
  simp only [firstChild?, push, Array.getElem?_push]
  split
  · next hi => simp [hi]
  · rfl

theorem operator?_push (sibling : Option Nat) (h : ∀ j ∈ sibling, j < t.nodes.size) (i : Nat) :
    (t.push b sibling h).operator? i = t.operator? i := by
  simp only [operator?, push, Array.getElem?_push]
  split
  · next hi => simp [hi]
  · rfl

theorem nodes_setRoot (i : Nat) : (t.setRoot b i).nodes = t.nodes := by
  unfold setRoot
  split <;> rfl

theorem operator?_grow (parent : Option Nat) (i : Nat) :
    (t.grow parent b).operator? i = t.operator? i := by
  cases parent with
  | none => rw [grow, operator?, nodes_setRoot, ← operator?, operator?_push]
  | some p =>
    rw [← operator?_push (b := b) (t.firstChild? p) (fun _ => t.firstChild?_lt) i]
    simp only [grow, operator?, setFirstChild, Array.getElem?_modify]
    split
    · rw [Option.bind_map]
      rfl
    · rfl

theorem firstChild?_grow_of_ne {parent : Option Nat} (h : parent ≠ some i) :
    (t.grow parent b).firstChild? i = t.firstChild? i := by
  cases parent with
  | none => rw [grow, firstChild?, nodes_setRoot, ← firstChild?, firstChild?_push]
  | some p =>
    rw [← firstChild?_push (b := b) (t.firstChild? p) (fun _ => t.firstChild?_lt) i]
    simp only [grow, firstChild?, setFirstChild, Array.getElem?_modify,
      if_neg fun hp => h (congrArg some hp)]

theorem firstChild?_grow_self (hp : p < t.nodes.size) :
    (t.grow (some p) b).firstChild? p = some t.nodes.size := by
  simp [grow, firstChild?, push, setFirstChild, Array.getElem?_modify, Array.getElem?_push,
    Nat.ne_of_lt hp, hp]

theorem getElem?_grow_size (hp : p < t.nodes.size) :
    (t.grow (some p) b).nodes[t.nodes.size]? = some ⟨b, none, none, t.firstChild? p⟩ := by
  simp only [grow, push, setFirstChild, Array.getElem?_modify, Nat.ne_of_lt hp, if_false,
    Array.getElem?_push_size]

theorem slot?_inj {slot : Fin 96} (hb : slot? b = some slot) (hc : slot? c = some slot) :
    b = c := by
  unfold slot? at hb hc
  split at hb <;> split at hc
  · next hb' hc' =>
    cases hb
    have hslot := Fin.ext_iff.mp (Option.some.inj hc)
    simp only [IsPrintable] at hb' hc' hslot
    exact UInt8.toNat_inj.mp (by omega)
  all_goals simp_all

theorem root_grow (hb : IsPrintable b) (c : UInt8) :
    (t.grow none b).next? none c = if c = b then some t.nodes.size else t.next? none c := by
  obtain ⟨slot, hslot⟩ : ∃ slot, slot? b = some slot := ⟨_, dif_pos hb⟩
  simp only [grow, next?, setRoot, hslot]
  rcases hc : slot? c with _ | other
  · rw [if_neg (by rintro rfl; rw [hc] at hslot; cases hslot)]
    rfl
  · by_cases hcb : c = b
    · subst hcb
      rw [hc] at hslot
      cases hslot
      simp
    · have hne : slot ≠ other := by
        rintro rfl
        exact hcb (slot?_inj hc hslot)
      simp [hcb, push, Vector.getElem_set, Fin.val_ne_of_ne hne]

theorem child?_grow_self (hp : p < t.nodes.size) (c : UInt8) :
    (t.grow (some p) b).child? p c = if c = b then some t.nodes.size else t.child? p c := by
  rw [child?, firstChild?_grow_self hp, Option.bind_some, sibling?_eq, getElem?_grow_size hp,
    Option.bind_some]
  by_cases hcb : c = b
  · rw [if_pos hcb, if_pos hcb.symm]
  · rw [if_neg hcb, if_neg (Ne.symm hcb)]
    exact Option.bind_congr fun i hi => sibling?_grow _ (t.firstChild?_lt hi)

/-- A new node is reached from its parent alone, and all others as they were. -/
theorem next?_grow {parent : Option Nat} (hparent : ∀ i ∈ parent, i < t.nodes.size)
    (hb : IsPrintable b) (q : Option Nat) (c : UInt8) :
    (t.grow parent b).next? q c =
      if q = parent ∧ c = b then some t.nodes.size else t.next? q c := by
  by_cases hq : q = parent
  · subst hq
    simp only [true_and]
    cases q with
    | none => exact root_grow hb c
    | some p => exact child?_grow_self (hparent p rfl) c
  · rw [if_neg fun h => hq h.1]
    cases q with
    | none =>
      rcases parent with _ | p
      · exact absurd rfl hq
      · rfl
    | some i =>
      rw [next?, child?, firstChild?_grow_of_ne (Ne.symm hq)]
      exact Option.bind_congr fun i hi => sibling?_grow _ (t.firstChild?_lt hi)

/-! The words that lead to the nodes. -/

/-- What leads to a node; nothing leads to the roots. -/
def Spells (paths : List (List UInt8)) : Option Nat → List UInt8 → Prop
  | none, w => w = []
  | some n, w => paths[n]? = some w

/-- The trie has a node for each of the paths, in their order. A numbered word is one of them. -/
structure Represents (t : OperatorTrie) (paths : List (List UInt8))
    (number : List UInt8 → Option Nat) : Prop where
  size_eq : paths.length = t.nodes.size
  next?_eq : ∀ {q w}, Spells paths q w → ∀ c n, t.next? q c = some n ↔ paths[n]? = some (w ++ [c])
  closed : ∀ {w c}, w ++ [c] ∈ paths → w = [] ∨ w ∈ paths
  ne_nil : ∀ w ∈ paths, w ≠ []
  printable : ∀ w ∈ paths, ∀ c ∈ w, IsPrintable c
  operator?_eq : ∀ {n w}, paths[n]? = some w → t.operator? n = number w
  mem_of_number : ∀ {w k}, number w = some k → w ∈ paths

theorem represents_empty : Represents empty [] fun _ => none where
  size_eq := rfl
  next?_eq {q w} hq c n := by
    cases q with
    | none =>
      have hnone : empty.next? none c = none := by
        unfold next? empty
        rcases slot? c with _ | slot <;> simp
      simp [hnone]
    | some i => cases hq
  closed := nofun
  ne_nil := nofun
  printable := nofun
  operator?_eq := nofun
  mem_of_number := nofun

namespace Represents

variable {paths : List (List UInt8)} {number : List UInt8 → Option Nat} {q r : Option Nat}
  {w : List UInt8}

theorem exists_spells (hw : w = [] ∨ w ∈ paths) : ∃ q, Spells paths q w := by
  rcases hw with rfl | hw
  · exact ⟨none, rfl⟩
  · obtain ⟨n, hn⟩ := List.mem_iff_getElem?.mp hw
    exact ⟨some n, hn⟩

/-- Two nodes do not have one path. -/
theorem index_unique (h : Represents t paths number) (hi : paths[i]? = some w)
    (hj : paths[j]? = some w) : i = j := by
  have hmem := List.mem_of_getElem? hi
  obtain ⟨v, c, rfl⟩ := (List.eq_nil_or_concat w).resolve_left (h.ne_nil w hmem)
  rw [List.concat_eq_append] at *
  obtain ⟨q, hq⟩ := exists_spells (h.closed hmem)
  have hi' := (h.next?_eq hq c i).mpr hi
  rw [(h.next?_eq hq c j).mpr hj] at hi'
  exact (Option.some.inj hi').symm

theorem spells_unique (h : Represents t paths number) (hq : Spells paths q w)
    (hr : Spells paths r w) : q = r := by
  cases q with
  | none =>
    cases hq
    cases r with
    | none => rfl
    | some j => exact absurd rfl (h.ne_nil [] (List.mem_of_getElem? hr))
  | some i =>
    cases r with
    | none =>
      cases hr
      exact absurd rfl (h.ne_nil [] (List.mem_of_getElem? hq))
    | some j => exact congrArg some (h.index_unique hq hr)

theorem spells_lt (h : Represents t paths number) (hq : Spells paths q w) :
    ∀ i ∈ q, i < t.nodes.size := by
  rintro i rfl
  rw [← h.size_eq]
  exact (List.getElem?_eq_some_iff.mp hq).1

/-- What begins a path is a path. -/
theorem mem_of_append_mem (h : Represents t paths number) (hw : w ≠ []) {v : List UInt8}
    (hv : w ++ v ∈ paths) : w ∈ paths := by
  induction v using List.reverseRecOn with
  | nil => rwa [List.append_nil] at hv
  | append_singleton v c ih =>
    rw [← List.append_assoc] at hv
    exact ih ((h.closed hv).resolve_left (List.append_ne_nil_of_left_ne_nil hw v))

theorem not_mem_of_next?_eq_none (h : Represents t paths number) (hq : Spells paths q w)
    (hnone : t.next? q b = none) (v : List UInt8) : w ++ b :: v ∉ paths := by
  intro hmem
  rw [List.append_cons] at hmem
  have hmem := h.mem_of_append_mem
    (List.append_ne_nil_of_right_ne_nil w (List.cons_ne_nil b [])) hmem
  obtain ⟨n, hn⟩ := List.mem_iff_getElem?.mp hmem
  rw [(h.next?_eq hq b n).mpr hn] at hnone
  cases hnone

theorem spells_concat {x v : List UInt8} (hr : Spells (paths ++ [x]) r v) :
    Spells paths r v ∨ r = some paths.length ∧ v = x := by
  cases r with
  | none => exact .inl hr
  | some i =>
    simp only [Spells, List.getElem?_append, List.getElem?_singleton] at hr ⊢
    grind

theorem getElem?_concat_eq_some {x v : List UInt8} :
    (paths ++ [x])[n]? = some v ↔ paths[n]? = some v ∨ n = paths.length ∧ v = x := by
  simp only [List.getElem?_append, List.getElem?_singleton]
  grind

theorem word_unique {v : List UInt8} (hw : Spells paths q w) (hv : Spells paths q v) : w = v := by
  cases q with
  | none => exact hw.trans hv.symm
  | some i => exact Option.some.inj (hw.symm.trans hv)

theorem printable_of_spells (h : Represents t paths number) (hq : Spells paths q w) :
    ∀ c ∈ w, IsPrintable c := by
  cases q with
  | none =>
    cases hq
    exact nofun
  | some i => exact h.printable w (List.mem_of_getElem? hq)

theorem mem_or_nil_of_spells (hq : Spells paths q w) : w = [] ∨ w ∈ paths := by
  cases q with
  | none => exact .inl hq
  | some i => exact .inr (List.mem_of_getElem? hq)

section Grow

variable (h : Represents t paths number) (hq : Spells paths q w) (hnone : t.next? q b = none)
  (hb : IsPrintable b)

include h hq hnone hb

theorem next?_grow_iff {v : List UInt8} (hr : Spells (paths ++ [w ++ [b]]) r v) (c : UInt8)
    (n : Nat) :
    (t.grow q b).next? r c = some n ↔ (paths ++ [w ++ [b]])[n]? = some (v ++ [c]) := by
  rw [next?_grow (h.spells_lt hq) hb, getElem?_concat_eq_some, ← h.size_eq]
  rcases spells_concat hr with hold | ⟨rfl, rfl⟩
  · rw [← h.next?_eq hold c n]
    by_cases hrq : r = q ∧ c = b
    · obtain ⟨rfl, rfl⟩ := hrq
      simp [word_unique hold hq, hnone, eq_comm]
    · have hne : v ++ [c] ≠ w ++ [b] := by
        intro heq
        obtain ⟨rfl, hcb⟩ := List.append_inj' heq rfl
        exact hrq ⟨h.spells_unique hold hq, List.singleton_inj.mp hcb⟩
      simp [hrq, hne]
  · -- nothing is below the new node yet
    have hne : some paths.length ≠ q := by
      rintro rfl
      exact absurd (h.spells_lt hq _ rfl) (by rw [h.size_eq]; exact Nat.lt_irrefl _)
    have hend : t.next? (some paths.length) c = none := by
      simp [next?, child?, firstChild?, h.size_eq]
    have hpath : paths[n]? ≠ some (w ++ [b] ++ [c]) := fun hn =>
      h.not_mem_of_next?_eq_none hq hnone [c] (by simpa using List.mem_of_getElem? hn)
    simpa [hne, hend] using hpath

/-- A new node comes with a new path, one byte longer than that of its parent. -/
theorem grow : Represents (t.grow q b) (paths ++ [w ++ [b]]) number where
  size_eq := by simp [h.size_eq]
  next?_eq := h.next?_grow_iff hq hnone hb
  closed {v c} hv := by
    rw [List.mem_append, List.mem_singleton] at hv
    rcases hv with hv | hv
    · exact (h.closed hv).imp_right (List.mem_append_left _)
    · obtain ⟨rfl, -⟩ := List.append_inj' hv rfl
      exact (mem_or_nil_of_spells hq).imp_right (List.mem_append_left _)
  ne_nil := by
    simp only [List.mem_append, List.mem_singleton]
    rintro v (hv | rfl)
    · exact h.ne_nil v hv
    · exact List.append_ne_nil_of_right_ne_nil w (List.cons_ne_nil b [])
  printable := by
    simp only [List.mem_append, List.mem_singleton]
    rintro v (hv | rfl) c hc
    · exact h.printable v hv c hc
    · rcases List.mem_append.mp hc with hc | hc
      · exact h.printable_of_spells hq c hc
      · exact List.mem_singleton.mp hc ▸ hb
  operator?_eq {n v} hv := by
    rw [operator?_grow]
    rcases getElem?_concat_eq_some.mp hv with hv | ⟨rfl, rfl⟩
    · exact h.operator?_eq hv
    · have hnumber : number (w ++ [b]) = none := by
        rw [Option.eq_none_iff_forall_ne_some]
        exact fun k hk => h.not_mem_of_next?_eq_none hq hnone [] (h.mem_of_number hk)
      rw [hnumber]
      simp [operator?, h.size_eq]
  mem_of_number hk := List.mem_append_left _ (h.mem_of_number hk)

end Grow

/-- After a word is entered it leads to the node where the walk ended. -/
theorem enter (h : Represents t paths number) (hq : Spells paths q w) {v : List UInt8}
    (hv : ∀ c ∈ v, IsPrintable c) :
    ∃ paths', Represents (t.enter q v).1 paths' number ∧
      Spells paths' (t.enter q v).2 (w ++ v) := by
  induction v generalizing t paths q w with
  | nil => exact ⟨paths, h, by rwa [List.append_nil]⟩
  | cons b v ih =>
    obtain ⟨hb, hv⟩ := List.forall_mem_cons.mp hv
    rw [OperatorTrie.enter, List.append_cons]
    split
    · next node hnode => exact ih h ((h.next?_eq hq b node).mp hnode) hv
    · next hnone =>
      refine ih (h.grow hq hnone hb) ?_ hv
      simp [Spells, ← h.size_eq]

theorem next?_setOperator (i k : Nat) (q : Option Nat) (c : UInt8) :
    (t.setOperator i k).next? q c = t.next? q c := by
  cases q with
  | none => rfl
  | some p =>
    have hfirst : (t.setOperator i k).firstChild? p = t.firstChild? p := by
      simp only [firstChild?, OperatorTrie.setOperator, Array.getElem?_modify]
      split
      · rw [Option.bind_map]
        rfl
      · rfl
    rw [next?, next?, child?, child?, hfirst]
    refine Option.bind_congr fun j _ => sibling?_congr fun m _ => ?_
    simp only [OperatorTrie.setOperator, Array.getElem?_modify]
    split
    · rw [Option.map_map]
      rfl
    · rfl

theorem setOperator (h : Represents t paths number) (hi : paths[i]? = some w) (k : Nat) :
    Represents (t.setOperator i k) paths (Function.update number w (some k)) where
  size_eq := by simp [OperatorTrie.setOperator, h.size_eq]
  next?_eq hq c n := by rw [next?_setOperator, h.next?_eq hq]
  closed := h.closed
  ne_nil := h.ne_nil
  printable := h.printable
  operator?_eq {n v} hn := by
    have hoperator := h.operator?_eq hn
    by_cases hvw : v = w
    · subst hvw
      have hlt := (List.getElem?_eq_some_iff.mp hn).1
      rw [h.index_unique hi hn, Function.update_self]
      rw [h.size_eq] at hlt
      simp only [operator?, OperatorTrie.setOperator, Array.getElem?_modify, if_true,
        Array.getElem?_eq_getElem hlt]
      rfl
    · have hne : i ≠ n := by
        rintro rfl
        exact hvw (Option.some.inj (hn.symm.trans hi))
      rw [Function.update_of_ne hvw, ← hoperator]
      simp only [operator?, OperatorTrie.setOperator, Array.getElem?_modify, if_neg hne]
  mem_of_number {v l} hv := by
    by_cases hvw : v = w
    · exact hvw ▸ List.mem_of_getElem? hi
    · rw [Function.update_of_ne hvw] at hv
      exact h.mem_of_number hv

theorem insert (h : Represents t paths number) (hne : w ≠ []) (hw : ∀ c ∈ w, IsPrintable c)
    (k : Nat) : ∃ paths', Represents (t.insert w k) paths' (Function.update number w (some k)) := by
  have hroot : Spells paths none [] := rfl
  obtain ⟨paths', h', hend⟩ := h.enter hroot hw
  rw [List.nil_append] at hend
  unfold OperatorTrie.insert
  split
  · next t' last heq =>
    rw [heq] at h' hend
    exact ⟨paths', h'.setOperator hend k⟩
  · next t' heq =>
    rw [heq] at hend
    exact absurd hend hne

end Represents

/-- Words that a trie can tell apart. -/
structure IsTable (words : List (List UInt8)) : Prop where
  nodup : words.Nodup
  ne_nil : ∀ w ∈ words, w ≠ []
  printable : ∀ w ∈ words, ∀ c ∈ w, IsPrintable c

theorem build_concat (words : List (List UInt8)) (w : List UInt8) :
    build (words ++ [w]) = (build words).insert w words.length := by
  simp [build, List.zipIdx_append]

/-- The trie of a table gives each word its place in the table. -/
theorem exists_represents_build {words : List (List UInt8)} (hwords : IsTable words) :
    ∃ paths number, Represents (build words) paths number ∧
      ∀ w k, number w = some k ↔ words[k]? = some w := by
  induction words using List.reverseRecOn with
  | nil => exact ⟨[], _, represents_empty, by simp⟩
  | append_singleton words w ih =>
    have hmem : w ∈ words ++ [w] := List.mem_append_right _ (List.mem_singleton_self w)
    obtain ⟨hnodup, -, hdisjoint⟩ := List.nodup_append.mp hwords.nodup
    have hold : IsTable words :=
      ⟨hnodup, fun v hv => hwords.ne_nil v (List.mem_append_left _ hv),
        fun v hv => hwords.printable v (List.mem_append_left _ hv)⟩
    obtain ⟨paths, number, h, hnumber⟩ := ih hold
    obtain ⟨paths', h'⟩ := h.insert (hwords.ne_nil w hmem) (hwords.printable w hmem) words.length
    refine ⟨paths', _, build_concat words w ▸ h', fun v k => ?_⟩
    rw [Represents.getElem?_concat_eq_some, ← hnumber]
    by_cases hvw : v = w
    · subst hvw
      have hnone : number v ≠ some k := by
        intro hk
        have hv := List.mem_of_getElem? ((hnumber v k).mp hk)
        exact hdisjoint v hv v (List.mem_singleton_self v) rfl
      simp [hnone, eq_comm]
    · simp [hvw]

/-! The walk down the trie. -/

namespace Represents

variable {paths : List (List UInt8)} {number : List UInt8 → Option Nat} {q : Option Nat}
  {w : List UInt8}

theorem number_eq_none (h : Represents t paths number) (hw : w ∉ paths) : number w = none := by
  rw [Option.eq_none_iff_forall_ne_some]
  exact fun k hk => hw (h.mem_of_number hk)

/-- No word goes on from the path `w` with a byte that leads nowhere. -/
theorem number_eq_none_of_miss (h : Represents t paths number) (hmiss : ∀ v, w ++ b :: v ∉ paths)
    {v s : List UInt8} (hne : v ≠ []) (hv : v <+: b :: s) : number (w ++ v) = none := by
  obtain ⟨b', v, rfl⟩ := List.exists_cons_of_ne_nil hne
  obtain ⟨rfl, -⟩ := List.cons_prefix_cons.mp hv
  exact h.number_eq_none (hmiss v)

/-- From the path `w`, the walk finds the longest word that goes on with a beginning of `s`. It
keeps what it had found if there is none. -/
theorem lookupFrom_cases (h : Represents t paths number) (hq : Spells paths q w)
    (best : Option Found) (s : List UInt8) :
    (t.lookupFrom q w.length best s = best ∧ ∀ v, v ≠ [] → v <+: s → number (w ++ v) = none) ∨
      ∃ v k, v ≠ [] ∧ v <+: s ∧ number (w ++ v) = some k ∧
        t.lookupFrom q w.length best s = some ⟨k, (w ++ v).length⟩ ∧
        ∀ v', v' <+: s → number (w ++ v') ≠ none → v'.length ≤ v.length := by
  induction s generalizing q w best with
  | nil => exact .inl ⟨rfl, fun v hne hv => absurd (List.prefix_nil.mp hv) hne⟩
  | cons b s ih =>
    rw [lookupFrom]
    by_cases hb : IsPrintable b
    swap
    · have hmiss : ∀ v, w ++ b :: v ∉ paths := fun v hv =>
        hb (h.printable _ hv b (List.mem_append_right _ List.mem_cons_self))
      rw [if_neg hb]
      exact .inl ⟨rfl, fun v => h.number_eq_none_of_miss hmiss⟩
    rw [if_pos hb]
    rcases hnode : t.next? q b with _ | node
    · have hmiss := h.not_mem_of_next?_eq_none hq hnode
      exact .inl ⟨rfl, fun v => h.number_eq_none_of_miss hmiss⟩
    have hnext : Spells paths (some node) (w ++ [b]) := (h.next?_eq hq b node).mp hnode
    have hlength : (w ++ [b]).length = w.length + 1 := List.length_append
    dsimp only
    rw [h.operator?_eq hnext, ← hlength]
    rcases ih hnext (((number (w ++ [b])).map fun k => ⟨k, (w ++ [b]).length⟩) <|> best) with
      ⟨heq, hnone⟩ | ⟨v, k, hne, hv, hk, heq, hle⟩
    · -- no word goes beyond the byte `b`
      have hshort : ∀ v, v ≠ [b] → v ≠ [] → v <+: b :: s → number (w ++ v) = none := by
        intro v hvb hne hv
        obtain ⟨b', v, rfl⟩ := List.exists_cons_of_ne_nil hne
        obtain ⟨rfl, hmore⟩ := List.cons_prefix_cons.mp hv
        rw [List.append_cons]
        exact hnone v (fun hnil => hvb (by rw [hnil])) hmore
      rcases hnumber : number (w ++ [b]) with _ | k <;> rw [hnumber] at heq
      · refine .inl ⟨heq, fun v hne hv => ?_⟩
        by_cases hvb : v = [b]
        · rw [hvb, hnumber]
        · exact hshort v hvb hne hv
      · refine .inr ⟨[b], k, List.cons_ne_nil b [], ⟨s, rfl⟩, hnumber, heq, fun v' hv' hk' => ?_⟩
        by_contra hlong
        refine hk' (hshort v' ?_ ?_ hv') <;> rintro rfl <;> exact hlong (by simp)
    · refine .inr ⟨b :: v, k, List.cons_ne_nil b v, List.cons_prefix_cons.mpr ⟨rfl, hv⟩, ?_, ?_,
        fun v' hv' hk' => ?_⟩
      · rwa [List.append_cons]
      · rw [heq, ← List.append_cons]
      · rcases v' with _ | ⟨b', v'⟩
        · exact Nat.zero_le _
        obtain ⟨rfl, hmore⟩ := List.cons_prefix_cons.mp hv'
        rw [List.append_cons] at hk'
        exact Nat.succ_le_succ (hle v' hmore hk')

end Represents

/-- The place of a word in a table, and its length. -/
structure IsLongest (words : List (List UInt8)) (s : List UInt8) (found : Found) : Prop where
  word : ∃ w, words[found.index]? = some w ∧ w <+: s ∧ w.length = found.len
  le : ∀ w ∈ words, w <+: s → w.length ≤ found.len

/-- Of a table without repetitions only one place is that of the longest word. -/
theorem IsLongest.unique {words : List (List UInt8)} (hwords : words.Nodup) {s : List UInt8}
    {found found' : Found} (h : IsLongest words s found) (h' : IsLongest words s found') :
    found = found' := by
  obtain ⟨w, hw, hprefix, hlength⟩ := h.word
  obtain ⟨w', hw', hprefix', hlength'⟩ := h'.word
  have hlen : found.len = found'.len :=
    Nat.le_antisymm (hlength ▸ h'.le w (List.mem_of_getElem? hw) hprefix)
      (hlength' ▸ h.le w' (List.mem_of_getElem? hw') hprefix')
  have hword : w = w' := by
    rw [List.prefix_iff_eq_take.mp hprefix, List.prefix_iff_eq_take.mp hprefix', hlength, hlength',
      hlen]
  have hindex : found.index = found'.index :=
    (List.getElem?_inj (List.getElem?_eq_some_iff.mp hw).1 hwords).mp (by rw [hw, hw', hword])
  rcases found with ⟨index, len⟩
  rcases found' with ⟨index', len'⟩
  exact congrArg₂ Found.mk hindex hlen

variable {words : List (List UInt8)}

theorem lookup_build_cases (hwords : IsTable words) (s : List UInt8) :
    ((build words).lookup s = none ∧ ∀ w ∈ words, ¬w <+: s) ∨
      ∃ found, (build words).lookup s = some found ∧ IsLongest words s found := by
  obtain ⟨paths, number, h, hnumber⟩ := exists_represents_build hwords
  have hmem : ∀ w ∈ words, number w ≠ none := by
    intro w hw
    obtain ⟨k, hk⟩ := List.mem_iff_getElem?.mp hw
    rw [(hnumber w k).mpr hk]
    nofun
  have hroot : Spells paths none [] := rfl
  have hcases := h.lookupFrom_cases hroot none s
  simp only [List.nil_append] at hcases
  rcases hcases with ⟨heq, hnone⟩ | ⟨w, k, -, hw, hk, heq, hle⟩
  · exact .inl ⟨heq, fun w hw hs => hmem w hw (hnone w (hwords.ne_nil w hw) hs)⟩
  · refine .inr ⟨_, heq, ⟨w, (hnumber w k).mp hk, hw, rfl⟩, fun v hv hs => ?_⟩
    exact hle v hs (hmem v hv)

theorem lookup_build_eq_some_iff (hwords : IsTable words) {s : List UInt8} {found : Found} :
    (build words).lookup s = some found ↔ IsLongest words s found := by
  rcases lookup_build_cases hwords s with ⟨heq, hnone⟩ | ⟨found', heq, hlongest⟩
  · rw [heq]
    refine ⟨nofun, fun h => ?_⟩
    obtain ⟨w, hw, hprefix, -⟩ := h.word
    exact absurd hprefix (hnone w (List.mem_of_getElem? hw))
  · rw [heq]
    refine ⟨fun h => Option.some.inj h ▸ hlongest, fun h => ?_⟩
    exact congrArg some (hlongest.unique hwords.nodup h)

theorem lookup_build_eq_none_iff (hwords : IsTable words) {s : List UInt8} :
    (build words).lookup s = none ↔ ∀ w ∈ words, ¬w <+: s := by
  rcases lookup_build_cases hwords s with ⟨heq, hnone⟩ | ⟨found', heq, hlongest⟩
  · exact iff_of_true heq hnone
  · obtain ⟨w, hw, hprefix, -⟩ := hlongest.word
    rw [heq]
    exact iff_of_false nofun fun h => h w (List.mem_of_getElem? hw) hprefix

end ScriptFront.OperatorTrie
