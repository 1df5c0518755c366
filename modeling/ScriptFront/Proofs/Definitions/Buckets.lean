import ScriptFront.Definitions
import ScriptFront.Proofs.Lookup

/-! Buckets of definitions. As long as no two buckets have one hash, what is found, set and removed
is told by the names in the list of all definitions, and no longer by the buckets. -/
namespace ScriptFront

namespace Bucket

variable {b : Bucket} {e x : Definition}

@[simp] theorem hash_set (b : Bucket) (x : Definition) : (b.set x).hash = b.hash := by
  unfold set
  split <;> rfl

@[simp] theorem hash_erase (b : Bucket) (name : String) : (b.erase name).hash = b.hash := rfl

theorem isSome_get?_iff {name : String} : (b.get? name).isSome ↔ ∃ e ∈ b.entries, e.name = name := by
  rw [get?, List.find?_isSome]
  simp

theorem mem_set : e ∈ (b.set x).entries ↔ e = x ∨ e ∈ b.entries ∧ e.name ≠ x.name := by
  unfold set
  split
  · next hknown =>
    obtain ⟨old, hold, hname⟩ := isSome_get?_iff.mp hknown
    simp only [List.mem_map]
    constructor
    · rintro ⟨d, hd, rfl⟩
      by_cases hdx : d.name = x.name
      · exact .inl (if_pos hdx)
      · rw [if_neg hdx]
        exact .inr ⟨hd, hdx⟩
    · rintro (rfl | ⟨he, hne⟩)
      · exact ⟨old, hold, if_pos hname⟩
      · exact ⟨e, he, if_neg hne⟩
  · next hnew =>
    have hother : ∀ d ∈ b.entries, d.name ≠ x.name := fun d hd hdx =>
      hnew (isSome_get?_iff.mpr ⟨d, hd, hdx⟩)
    simp only [List.mem_append, List.mem_singleton]
    constructor
    · rintro (he | rfl)
      · exact .inr ⟨he, hother e he⟩
      · exact .inl rfl
    · rintro (rfl | ⟨he, -⟩)
      · exact .inr rfl
      · exact .inl he

theorem get?_set (b : Bucket) (x : Definition) (name : String) :
    (b.set x).get? name = if name = x.name then some x else b.get? name := by
  have hname {e : Definition} (he : b.get? name = some e) : e.name = name := by
    simpa using List.find?_some he
  unfold set
  split
  · next hknown =>
    have hkeys (e : Definition) : (if e.name = x.name then x else e).name = e.name := by
      split
      · next he => exact he.symm
      · rfl
    have hfind : get? { b with entries := b.entries.map fun e => if e.name = x.name then x else e }
        name = (b.get? name).map fun e => if e.name = x.name then x else e :=
      find?_key_map hkeys b.entries name
    rw [hfind]
    split
    · next hx =>
      subst hx
      obtain ⟨e, he⟩ := Option.isSome_iff_exists.mp hknown
      rw [he, Option.map_some, if_pos (hname he)]
    · next hx =>
      cases he : b.get? name with
      | none => rfl
      | some e => rw [Option.map_some, if_neg (by rwa [hname he])]
  · next hnew =>
    have hfind : get? { b with entries := b.entries ++ [x] } name =
        (b.get? name).or ([x].find? (·.name == name)) := List.find?_append
    rw [hfind, List.find?_singleton]
    by_cases hx : name = x.name
    · subst hx
      rw [Option.not_isSome_iff_eq_none.mp hnew, if_pos (beq_self_eq_true _), if_pos rfl,
        Option.none_or]
    · rw [if_neg (by simpa using Ne.symm hx), if_neg hx, Option.or_none]

theorem nodup_set (h : (b.entries.map (·.name)).Nodup) :
    ((b.set x).entries.map (·.name)).Nodup := by
  unfold set
  split
  · have hsame : (fun e : Definition => (if e.name = x.name then x else e).name) = (·.name) := by
      funext e
      split
      · next he => exact he.symm
      · rfl
    simpa only [List.map_map, Function.comp_def, hsame] using h
  · next hnew =>
    rw [List.map_append, List.map_singleton, ← List.concat_eq_append]
    refine h.concat fun hin => ?_
    obtain ⟨d, hd, hdx⟩ := List.mem_map.mp hin
    exact hnew (isSome_get?_iff.mpr ⟨d, hd, hdx⟩)

theorem mem_erase (h : (b.entries.map (·.name)).Nodup) {name : String} :
    e ∈ (b.erase name).entries ↔ e ∈ b.entries ∧ e.name ≠ name := by
  have hother (hne : e.name ≠ name) : e ∈ (b.erase name).entries ↔ e ∈ b.entries :=
    List.mem_eraseP_of_neg (by simpa using hne)
  constructor
  · intro he
    have hin : e ∈ b.entries := List.mem_of_mem_eraseP he
    refine ⟨hin, fun hname => ?_⟩
    -- the first entry of the name goes, and there is no second one
    obtain ⟨d, l, r, -, hd, hsplit, herase⟩ :=
      List.exists_of_eraseP (p := (·.name == name)) hin (by simpa using hname)
    have hd : d.name = name := by simpa using hd
    rw [hsplit, List.map_append, List.map_cons, List.nodup_middle] at h
    have hnot : d.name ∉ l.map (·.name) ++ r.map (·.name) := (List.nodup_cons.mp h).1
    rw [← List.map_append, ← herase] at hnot
    exact hnot (List.mem_map.mpr ⟨e, he, hname.trans hd.symm⟩)
  · rintro ⟨he, hne⟩
    exact (hother hne).mpr he

theorem nodup_erase (h : (b.entries.map (·.name)).Nodup) (name : String) :
    ((b.erase name).entries.map (·.name)).Nodup :=
  h.sublist (List.eraseP_sublist.map _)

end Bucket

/-- No two buckets have one hash, and each name is in the bucket of its hash, once. -/
structure HashedBuckets (hash : NameHash) (bs : List Bucket) : Prop where
  hashes : (bs.map (·.hash)).Nodup
  placed : ∀ b ∈ bs, ∀ e ∈ b.entries, hash e.name = b.hash
  names : ∀ b ∈ bs, (b.entries.map (·.name)).Nodup

namespace HashedBuckets

variable {hash : NameHash} {bs : List Bucket} {b : Bucket}

theorem nil : HashedBuckets hash [] := by
  constructor
  · exact List.nodup_nil
  · exact fun b hb => absurd hb List.not_mem_nil
  · exact fun b hb => absurd hb List.not_mem_nil

theorem sublist {cs : List Bucket} (h : HashedBuckets hash bs) (hcs : cs.Sublist bs) : HashedBuckets hash cs :=
  ⟨h.hashes.sublist (hcs.map _), fun b hb => h.placed b (hcs.subset hb),
    fun b hb => h.names b (hcs.subset hb)⟩

/-- A bucket with one name is added. -/
theorem concat (h : HashedBuckets hash bs) {e : Definition} (hnew : ∀ b ∈ bs, b.hash ≠ hash e.name) :
    HashedBuckets hash (bs ++ [⟨hash e.name, [e]⟩]) := by
  constructor
  · rw [List.map_append, List.map_singleton, ← List.concat_eq_append]
    refine h.hashes.concat fun hin => ?_
    obtain ⟨b, hb, hbh⟩ := List.mem_map.mp hin
    exact hnew b hb hbh
  · rw [List.forall_mem_append, List.forall_mem_singleton]
    exact ⟨h.placed, fun d hd => by rw [List.mem_singleton.mp hd]⟩
  · rw [List.forall_mem_append, List.forall_mem_singleton]
    exact ⟨h.names, List.nodup_singleton _⟩

end HashedBuckets

namespace Definitions

variable {hash : NameHash} {d : Definitions hash} {name : String} {value : Int64} {e : Definition}

theorem mem_toList : e ∈ d.toList ↔ ∃ b ∈ d.buckets, e ∈ b.entries := List.mem_flatMap

theorem isSome_bucket?_iff {h : UInt64} : (d.bucket? h).isSome ↔ ∃ b ∈ d.buckets, b.hash = h := by
  rw [bucket?, List.find?_isSome]
  simp

section Change

variable {h : UInt64} {f : Bucket → Bucket}

theorem hashed_change (hd : HashedBuckets hash d.buckets) (hhash : ∀ b, (f b).hash = b.hash)
    (hplaced : ∀ b ∈ d.buckets, b.hash = h → ∀ e ∈ (f b).entries, hash e.name = h)
    (hnames : ∀ b ∈ d.buckets, ((f b).entries.map (·.name)).Nodup) :
    HashedBuckets hash (d.change h f) := by
  have hsame (b : Bucket) : (if b.hash = h then f b else b).hash = b.hash := by
    split
    · exact hhash b
    · rfl
  constructor
  · rw [change, List.map_map]
    simpa only [Function.comp_def, hsame] using hd.hashes
  · rw [change, List.forall_mem_map]
    intro b hb e he
    rw [hsame]
    split at he
    · next hbh => rw [hplaced b hb hbh e he, hbh]
    · exact hd.placed b hb e he
  · rw [change, List.forall_mem_map]
    intro b hb
    split
    · exact hnames b hb
    · exact hd.names b hb

/-- A change that in the bucket of a name is one of this name is so among all definitions. -/
theorem exists_mem_change (hd : HashedBuckets hash d.buckets) {new : Prop}
    (hf : ∀ b ∈ d.buckets, e ∈ (f b).entries ↔ new ∨ e ∈ b.entries ∧ e.name ≠ name) :
    (∃ c ∈ d.change (hash name) f, e ∈ c.entries) ↔
      (∃ b ∈ d.buckets, b.hash = hash name) ∧ new ∨ e ∈ d.toList ∧ e.name ≠ name := by
  simp only [change, List.mem_map, exists_exists_and_eq_and]
  constructor
  · rintro ⟨b, hb, he⟩
    split at he
    · next hbh =>
      rcases (hf b hb).mp he with hnew | ⟨he, hne⟩
      · exact .inl ⟨⟨b, hb, hbh⟩, hnew⟩
      · exact .inr ⟨mem_toList.mpr ⟨b, hb, he⟩, hne⟩
    · next hbh =>
      refine .inr ⟨mem_toList.mpr ⟨b, hb, he⟩, ?_⟩
      rintro rfl
      exact hbh (hd.placed b hb e he).symm
  · rintro (⟨⟨b, hb, hbh⟩, hnew⟩ | ⟨he, hne⟩)
    · exact ⟨b, hb, by rw [if_pos hbh]; exact (hf b hb).mpr (.inl hnew)⟩
    · obtain ⟨b, hb, he⟩ := mem_toList.mp he
      refine ⟨b, hb, ?_⟩
      split
      · exact (hf b hb).mpr (.inr ⟨he, hne⟩)
      · exact he

end Change

/-- A name is found with its value, if it is there. -/
theorem get?_eq_some_iff (hd : HashedBuckets hash d.buckets) :
    d.get? name = some e ↔ e ∈ d.toList ∧ e.name = name := by
  rw [get?, Option.bind_eq_some_iff, mem_toList]
  constructor
  · rintro ⟨b, hb, he⟩
    have hname : e.name = name := by simpa using List.find?_some he
    exact ⟨⟨b, List.mem_of_find?_eq_some hb, List.mem_of_find?_eq_some he⟩, hname⟩
  · rintro ⟨⟨b, hb, he⟩, rfl⟩
    have hbucket : d.bucket? (hash e.name) = some b := by
      rw [hd.placed b hb e he]
      exact find?_key_of_nodup hd.hashes hb
    exact ⟨b, hbucket, find?_key_of_nodup (hd.names b hb) he⟩

theorem isSome_get?_iff (hd : HashedBuckets hash d.buckets) :
    (d.get? name).isSome ↔ name ∈ d.toList.map (·.name) := by
  rw [Option.isSome_iff_exists, List.mem_map]
  exact exists_congr fun e => get?_eq_some_iff hd

theorem nodup_toList (hd : HashedBuckets hash d.buckets) : (d.toList.map (·.name)).Nodup := by
  rw [toList, List.map_flatMap, List.nodup_flatMap]
  refine ⟨hd.names, (hd.hashes.of_map _).pairwise_of_forall_ne fun b hb c hc hne => ?_⟩
  -- names of two buckets have two hashes
  intro name hnb hnc
  obtain ⟨e, he, rfl⟩ := List.mem_map.mp hnb
  obtain ⟨e', he', hname⟩ := List.mem_map.mp hnc
  have hhash : b.hash = c.hash := by
    rw [← hd.placed b hb e he, ← hd.placed c hc e' he', hname]
  exact hne (List.inj_on_of_nodup_map hd.hashes hb hc hhash)

theorem buckets_set (d : Definitions hash) (name : String) (value : Int64) :
    (d.set name value).2.buckets =
      if (d.bucket? (hash name)).isSome then d.change (hash name) (·.set ⟨name, value⟩)
      else d.buckets ++ [⟨hash name, [⟨name, value⟩]⟩] := by
  unfold set
  split <;> rfl

/-- What is set is found, and any other name as before. -/
theorem get?_set (d : Definitions hash) (name : String) (value : Int64) (other : String) :
    (d.set name value).2.get? other =
      if other = name then some ⟨name, value⟩ else d.get? other := by
  have hhash {h : UInt64} {b : Bucket} (hb : d.bucket? h = some b) : b.hash = h := by
    simpa using List.find?_some hb
  unfold get? bucket?
  rw [buckets_set]
  split
  · next hsome =>
    have hkeys (b : Bucket) :
        (if b.hash = hash name then b.set ⟨name, value⟩ else b).hash = b.hash := by
      split
      · exact b.hash_set _
      · rfl
    rw [change, find?_key_map hkeys]
    change ((d.bucket? (hash other)).map _).bind _ =
      if _ then _ else (d.bucket? (hash other)).bind _
    cases hb : d.bucket? (hash other) with
    | none =>
      have hne : other ≠ name := by
        rintro rfl
        rw [hb] at hsome
        cases hsome
      rw [if_neg hne]
      rfl
    | some b =>
      rw [Option.map_some, Option.bind_some, Option.bind_some]
      split
      · rw [Bucket.get?_set]
      · next hne =>
        have hother : other ≠ name := by
          rintro rfl
          exact hne (hhash hb)
        rw [if_neg hother]
  · next hnone =>
    rw [List.find?_append, List.find?_singleton]
    change ((d.bucket? (hash other)).or _).bind _ = if _ then _ else (d.bucket? (hash other)).bind _
    by_cases hsame : other = name
    · subst hsame
      rw [Option.not_isSome_iff_eq_none.mp hnone, if_pos (beq_self_eq_true _), if_pos rfl]
      simp [Bucket.get?]
    · rw [if_neg hsame]
      cases hb : d.bucket? (hash other) with
      | some b => rfl
      | none =>
        simp only [Option.none_or, Option.bind_none]
        split
        · simp [Bucket.get?, Ne.symm hsame]
        · rfl

theorem hashed_set (hd : HashedBuckets hash d.buckets) (name : String) (value : Int64) :
    HashedBuckets hash (d.set name value).2.buckets := by
  rw [buckets_set]
  split
  · refine hashed_change hd (·.hash_set _) (fun b hb hbh e he => ?_) fun b hb =>
      Bucket.nodup_set (hd.names b hb)
    rcases Bucket.mem_set.mp he with rfl | ⟨he, -⟩
    · rfl
    · rw [hd.placed b hb e he, hbh]
  · next hnone =>
    exact hd.concat (e := ⟨name, value⟩) fun b hb hbh => hnone (isSome_bucket?_iff.mpr ⟨b, hb, hbh⟩)

theorem mem_toList_set (hd : HashedBuckets hash d.buckets) :
    e ∈ (d.set name value).2.toList ↔ e = ⟨name, value⟩ ∨ e ∈ d.toList ∧ e.name ≠ name := by
  rw [mem_toList, buckets_set]
  split
  · next hsome =>
    have hset (b : Bucket) (_ : b ∈ d.buckets) :=
      Bucket.mem_set (b := b) (e := e) (x := ⟨name, value⟩)
    rw [exists_mem_change hd hset, ← isSome_bucket?_iff]
    simp only [hsome, true_and]
  · next hnone =>
    have hother : e ∈ d.toList → e.name ≠ name := by
      rintro he rfl
      obtain ⟨b, hb, heb⟩ := mem_toList.mp he
      exact hnone (isSome_bucket?_iff.mpr ⟨b, hb, (hd.placed b hb e heb).symm⟩)
    simp only [List.mem_append, List.mem_singleton, or_and_right, exists_or, ← mem_toList,
      exists_eq_left]
    constructor
    · rintro (he | rfl)
      · exact .inr ⟨he, hother he⟩
      · exact .inl rfl
    · rintro (rfl | ⟨he, -⟩)
      · exact .inr rfl
      · exact .inl he

/-- Nothing changes where the name is not there. -/
theorem remove_cases (d : Definitions hash) (name : String) :
    (d.get? name = none ∧ d.remove name = (none, d)) ∨
      ∃ old, d.get? name = some old ∧ d.remove name = (some old,
        ⟨(d.change (hash name) (·.erase name)).filter (!·.entries.isEmpty), d.size - 1⟩) := by
  unfold remove
  rcases hget : d.get? name with _ | old
  · exact .inl ⟨rfl, rfl⟩
  · exact .inr ⟨old, rfl, rfl⟩

theorem hashed_remove (hd : HashedBuckets hash d.buckets) (name : String) :
    HashedBuckets hash (d.remove name).2.buckets := by
  rcases d.remove_cases name with ⟨-, hrun⟩ | ⟨old, -, hrun⟩
  · rwa [hrun]
  · rw [hrun]
    refine (hashed_change hd (·.hash_erase _) (fun b hb hbh e he => ?_) fun b hb =>
      Bucket.nodup_erase (hd.names b hb) name).sublist List.filter_sublist
    obtain ⟨he, -⟩ := (Bucket.mem_erase (hd.names b hb)).mp he
    rw [hd.placed b hb e he, hbh]

theorem mem_toList_remove (hd : HashedBuckets hash d.buckets) :
    e ∈ (d.remove name).2.toList ↔ e ∈ d.toList ∧ e.name ≠ name := by
  rcases d.remove_cases name with ⟨hnone, hrun⟩ | ⟨old, -, hrun⟩
  · rw [hrun]
    refine ⟨fun he => ⟨he, fun hname => ?_⟩, And.left⟩
    rw [(get?_eq_some_iff hd).mpr ⟨he, hname⟩] at hnone
    cases hnone
  · have hfull : e ∈ (d.remove name).2.toList ↔
        ∃ c ∈ d.change (hash name) (·.erase name), e ∈ c.entries := by
      rw [hrun, mem_toList]
      refine exists_congr fun c => ?_
      rw [List.mem_filter]
      constructor
      · rintro ⟨⟨hc, -⟩, he⟩
        exact ⟨hc, he⟩
      · rintro ⟨hc, he⟩
        have hne : c.entries ≠ [] := List.ne_nil_of_mem he
        exact ⟨⟨hc, by simpa using hne⟩, he⟩
    have herase : ∀ b ∈ d.buckets,
        e ∈ (b.erase name).entries ↔ False ∨ e ∈ b.entries ∧ e.name ≠ name := by
      intro b hb
      rw [false_or]
      exact Bucket.mem_erase (hd.names b hb)
    rw [hfull, exists_mem_change hd herase, and_false, false_or]

end Definitions
end ScriptFront
