import ScriptFront.Pool.HandleList

/-! Taking entries out of a list in place. What the cursors leave behind is the list without the
entries at the given positions, in its order. -/
namespace ScriptFront.HandleList

/-- The entries from position `i` on whose positions have `f`. -/
def selectFrom (f : Nat → Bool) : Nat → List Handle → List Handle
  | _, [] => []
  | i, h :: hs => if f i then h :: selectFrom f (i + 1) hs else selectFrom f (i + 1) hs

theorem selectFrom_append (f : Nat → Bool) (i : Nat) (hs hs' : List Handle) :
    selectFrom f i (hs ++ hs') = selectFrom f i hs ++ selectFrom f (i + hs.length) hs' := by
  induction hs generalizing i with
  | nil => rfl
  | cons h hs ih =>
    rw [List.cons_append, selectFrom, selectFrom, ih, List.length_cons, Nat.add_assoc,
      Nat.add_comm 1]
    split <;> rfl

/-- All positions are wanted, or none is. -/
theorem selectFrom_of_forall {f : Nat → Bool} {b : Bool} {i : Nat} {hs : List Handle}
    (h : ∀ k, i ≤ k → k < i + hs.length → f k = b) :
    selectFrom f i hs = if b then hs else [] := by
  induction hs generalizing i with
  | nil => cases b <;> rfl
  | cons x hs ih =>
    rw [List.length_cons] at h
    have hhead : f i = b := h i (Nat.le_refl i) (by omega)
    have htail := ih (i := i + 1) fun k hlo hhi => h k (by omega) (by omega)
    rw [selectFrom, hhead, htail]
    cases b <;> rfl

theorem selectFrom_append_perm (f : Nat → Bool) (i : Nat) (hs : List Handle) :
    (selectFrom f i hs ++ selectFrom (!f ·) i hs).Perm hs := by
  induction hs generalizing i with
  | nil => exact List.Perm.refl _
  | cons h hs ih =>
    unfold selectFrom
    cases hf : f i with
    | true => exact (ih (i + 1)).cons h
    | false => exact List.perm_middle.trans ((ih (i + 1)).cons h)

theorem map_selectFrom {β : Type} (g : Handle → β) (f : Nat → Bool) (i : Nat) (hs : List Handle) :
    (selectFrom f i hs).map g = (((hs.map g).zipIdx i).filter (f ·.2)).map Prod.fst := by
  induction hs generalizing i with
  | nil => rfl
  | cons h hs ih =>
    rw [List.map_cons, List.zipIdx_cons, selectFrom, List.filter_cons]
    cases hf : f i with
    | true =>
      simp only [if_true, List.map_cons]
      rw [ih]
    | false =>
      simp only [Bool.false_eq_true, if_false]
      rw [ih]

theorem getElem?_doomed (length : Nat) (indices : List Nat) (i : Nat) :
    (doomed length indices)[i]? = if i < length then some (indices.contains i) else none := by
  have hflags : ∀ (indices : List Nat) (flags : List Bool),
      (indices.foldl (fun flags index => flags.set index true) flags)[i]? =
        flags[i]?.map (indices.contains i || ·) := by
    intro indices
    induction indices with
    | nil => simp
    | cons index indices ih =>
      intro flags
      rw [List.foldl_cons, ih, List.getElem?_set, List.contains_cons]
      by_cases hi : index = i
      · subst hi
        rcases hflag : flags[index]? with _ | flag
        · simp [List.getElem?_eq_none_iff.mp hflag]
        · simp [(List.getElem?_eq_some_iff.mp hflag).1]
      · have hne : (i == index) = false := beq_false_of_ne (Ne.symm hi)
        simp [hi, hne]
  rw [doomed, hflags, List.getElem?_replicate]
  split <;> simp

/-- What holds when the cursor stands at `read` in the list `hs`: the entries from there on are
where they were, and those before it are sorted out. -/
structure Compaction.Sorted (hs : List Handle) (f : Nat → Bool) (c : Compaction) (read : Nat) :
    Prop where
  unread : c.items.drop read = hs.drop read
  write_le : c.write ≤ read
  stay : c.items.take c.write = selectFrom (!f ·) 0 (hs.take read)
  gone : c.detached = selectFrom f 0 (hs.take read)

theorem Compaction.Sorted.start (hs : List Handle) (f : Nat → Bool) :
    Sorted hs f ⟨hs, 0, []⟩ 0 where
  unread := rfl
  write_le := Nat.le_refl 0
  stay := rfl
  gone := rfl

theorem Compaction.Sorted.next {hs : List Handle} {f : Nat → Bool} {c : Compaction} {read : Nat}
    {doomed : List Bool} (s : c.Sorted hs f read) (hread : read < hs.length)
    (hflag : doomed[read]? = some (f read)) : (c.next doomed read).Sorted hs f (read + 1) := by
  have hitem : c.items[read]? = some hs[read] := by
    rw [← List.head?_drop, s.unread, List.head?_drop, List.getElem?_eq_getElem hread]
  have hsize : read < c.items.length := (List.getElem?_eq_some_iff.mp hitem).1
  have hunread : c.items.drop (read + 1) = hs.drop (read + 1) := by
    rw [← List.drop_drop, s.unread, List.drop_drop]
  have hselect : ∀ g : Nat → Bool, selectFrom g 0 (hs.take (read + 1)) =
      selectFrom g 0 (hs.take read) ++ if g read then [hs[read]] else [] := by
    intro g
    rw [← List.take_append_getElem hread, selectFrom_append, Nat.zero_add, List.length_take,
      Nat.min_eq_left (Nat.le_of_lt hread)]
    rfl
  rw [Compaction.next, hitem, hflag]
  cases hf : f read with
  | true =>
    refine ⟨hunread, Nat.le_succ_of_le s.write_le, ?_, ?_⟩
    · simp [hselect, hf, s.stay]
    · simp [hselect, hf, s.gone]
  | false =>
    refine ⟨?_, Nat.succ_le_succ s.write_le, ?_, ?_⟩
    · rw [List.drop_set_of_lt (Nat.lt_succ_of_le s.write_le), hunread]
    · have hwrite : c.write < c.items.length := Nat.lt_of_le_of_lt s.write_le hsize
      have hset : (c.items.set c.write hs[read]).take (c.write + 1) =
          c.items.take c.write ++ [hs[read]] := by
        simp [List.take_add_one, hwrite, List.take_set_of_le]
      simp [hselect, hf, hset, s.stay]
    · simp [hselect, hf, s.gone]

theorem Compaction.Sorted.foldl {hs : List Handle} {indices : List Nat} {read : Nat}
    (hread : read ≤ hs.length) :
    ((List.range read).foldl (Compaction.next (doomed hs.length indices)) ⟨hs, 0, []⟩).Sorted hs
      (indices.contains ·) read := by
  induction read with
  | zero => exact .start hs _
  | succ read ih =>
    have hlt : read < hs.length := hread
    rw [List.range_succ, List.foldl_append]
    refine (ih (Nat.le_of_lt hlt)).next hlt ?_
    rw [getElem?_doomed, if_pos hlt]

variable {room : Nat} {α : Type}

/-- Either no position is named, or the entries at the named positions are let go. -/
theorem eraseIndices_cases (l : HandleList room) (p : Pool α) (indices : List Nat) :
    (indices = [] ∧ l.eraseIndices p indices = ⟨.ok (), l, p⟩) ∨
      l.eraseIndices p indices = l.keep p (selectFrom (!indices.contains ·) 0 l.handles)
        (selectFrom (indices.contains ·) 0 l.handles) := by
  rw [eraseIndices]
  by_cases hnone : indices.isEmpty
  · exact .inl ⟨List.isEmpty_iff.mp hnone, if_pos hnone⟩
  · have hsorted : Compaction.Sorted l.handles (indices.contains ·) _ l.handles.length :=
      Compaction.Sorted.foldl (Nat.le_refl _)
    right
    rw [if_neg hnone]
    dsimp only
    rw [hsorted.stay, hsorted.gone, List.take_length]

theorem drain_perm (hs : List Handle) (start stop : Nat) :
    hs.Perm ((drain hs start stop).1 ++ (drain hs start stop).2) := by
  unfold drain
  refine List.Perm.trans ?_ (List.perm_append_comm_assoc ..)
  rw [List.take_append_drop, List.take_append_drop]

/-- The entries of a list have positions of 64 bits, so no entry is lost to a sum that is too large. -/
theorem drain_saturatingAdd {hs : List Handle} (hlength : hs.length < UInt64.size)
    (index count : Nat) :
    drain hs index (min (saturatingAdd index count) hs.length) =
      ((hs.drop index).take count, hs.take index ++ (hs.drop index).drop count) := by
  have hcut : min (saturatingAdd index count) hs.length - index =
      min count (hs.drop index).length := by
    rw [List.length_drop, saturatingAdd]
    omega
  rw [drain, hcut]
  rcases Nat.le_total count (hs.drop index).length with hle | hle
  · rw [Nat.min_eq_left hle]
  · rw [Nat.min_eq_right hle, List.take_of_length_le hle, List.drop_of_length_le hle,
      List.take_length, List.drop_length]

/-- Either the range begins behind the list, or the entries in it are let go. -/
theorem eraseRange_cases (l : HandleList room) (p : Pool α) (index count : Nat) :
    (l.handles.length ≤ index ∧ l.eraseRange p index count = ⟨.ok (), l, p⟩) ∨
      let (gone, kept) :=
        drain l.handles index (min (saturatingAdd index count) l.handles.length)
      l.eraseRange p index count = l.keep p kept gone := by
  rw [eraseRange]
  split
  · next hlen => exact .inl ⟨hlen, rfl⟩
  · exact .inr rfl

end ScriptFront.HandleList
