import ScriptFront.Proofs.Diagnostic.Warnings

/-! What a collection of errors and warnings holds after it was given some. Main statement: reports
that are collected apart and put together are held as if they had come to one collection. -/
namespace ScriptFront

/-- What is reported to a collection. -/
inductive Finding
  | error (e : ErrorRecord)
  | warning (code : WarningCode) (message : String) (site : WarningSite)
  deriving DecidableEq, Repr

namespace Finding

def error? : Finding → Option ErrorRecord
  | error e => some e
  | warning .. => none

def key? : Finding → Option (WarningCode × String)
  | error _ => none
  | warning code message _ => some (code, message)

/-- The place of a warning with the given key. -/
def siteOf? (key : WarningCode × String) : Finding → Option WarningSite
  | error _ => none
  | warning code message site => if (code, message) = key then some site else none

end Finding

namespace Diagnostics

def add (d : Diagnostics) : Finding → Diagnostics
  | .error e => d.addError e
  | .warning code message site => d.addWarning code message site

def addAll (d : Diagnostics) (fs : List Finding) : Diagnostics := fs.foldl add d

theorem addAll_append (d : Diagnostics) (fs gs : List Finding) :
    d.addAll (fs ++ gs) = (d.addAll fs).addAll gs := List.foldl_append

/-! Errors. -/

/-- The errors that a limit lets through. -/
def kept (limit : Nat) (es : List ErrorRecord) : List ErrorRecord :=
  if limit = 0 then es else es.take limit

theorem kept_isPrefix (limit : Nat) (es : List ErrorRecord) : kept limit es <+: es := by
  unfold kept
  split_ifs
  · exact List.prefix_rfl
  · exact List.take_prefix limit es

theorem kept_append (limit : Nat) (es fs : List ErrorRecord) :
    kept limit (es ++ kept limit fs) = kept limit (es ++ fs) := by
  unfold kept
  split_ifs
  · rfl
  · rw [List.take_append, List.take_append, List.take_take, Nat.min_eq_left (Nat.sub_le _ _)]

/-- The collection with a limit that was given the errors `es` and holds the warnings `ws`. -/
def collected (limit : Nat) (es : List ErrorRecord) (ws : List WarningRecord) : Diagnostics :=
  ⟨limit, kept limit es, es.length - (kept limit es).length, ws, indexOf ws⟩

theorem limitReached_collected (limit : Nat) (es : List ErrorRecord) (ws : List WarningRecord) :
    (collected limit es ws).limitReached = true ↔ limit ≠ 0 ∧ limit ≤ es.length := by
  unfold limitReached collected kept
  rw [Bool.and_eq_true, decide_eq_true_iff, decide_eq_true_iff, Nat.pos_iff_ne_zero]
  refine and_congr_right fun hlimit => ?_
  rw [if_neg hlimit, List.length_take, Nat.le_min]
  exact and_iff_right (Nat.le_refl limit)

theorem addError_collected (limit : Nat) (es : List ErrorRecord) (ws : List WarningRecord)
    (e : ErrorRecord) : (collected limit es ws).addError e = collected limit (es ++ [e]) ws := by
  unfold addError
  split_ifs with hreached
  · obtain ⟨hlimit, hle⟩ := (limitReached_collected limit es ws).mp hreached
    have hkept : kept limit (es ++ [e]) = kept limit es := by
      rw [kept, kept, if_neg hlimit, if_neg hlimit, List.take_append_of_le_length hle]
    have hlength := (kept_isPrefix limit es).length_le
    simp only [collected, hkept, List.length_append, List.length_singleton, Diagnostics.mk.injEq,
      true_and, and_true]
    omega
  · have hkept : kept limit (es ++ [e]) = kept limit es ++ [e] := by
      unfold kept
      split_ifs with hlimit
      · rfl
      · have hlt : es.length < limit := by
          by_contra hle
          exact hreached ((limitReached_collected limit es ws).mpr ⟨hlimit, Nat.not_lt.mp hle⟩)
        have hshort : (es ++ [e]).length ≤ limit := by
          rw [List.length_append, List.length_singleton]
          exact hlt
        rw [List.take_of_length_le hshort, List.take_of_length_le (Nat.le_of_lt hlt)]
    simp only [collected, hkept, List.length_append, List.length_singleton, Nat.add_sub_add_right]

theorem addErrors_collected (limit : Nat) (es fs : List ErrorRecord) (ws : List WarningRecord) :
    (collected limit es ws).addErrors fs = collected limit (es ++ fs) ws := by
  induction fs generalizing es with
  | nil => rw [List.append_nil, addErrors, List.foldl_nil]
  | cons f fs ih =>
    have hrest := ih (es ++ [f])
    rw [List.append_assoc] at hrest
    rw [addErrors, List.foldl_cons, addError_collected]
    exact hrest

/-! Warnings. -/

theorem addWarning_collected (limit : Nat) (es : List ErrorRecord) (ws : List WarningRecord)
    (code : WarningCode) (message : String) (site : WarningSite) :
    (collected limit es ws).addWarning code message site =
      collected limit es (putSite (code, message) site ws) := addWarning_eq rfl code message site

theorem addRecord_collected (limit : Nat) (es : List ErrorRecord) (ws : List WarningRecord)
    (w : WarningRecord) :
    (collected limit es ws).addRecord w = collected limit es (putSites w.key ws w.sites) := by
  unfold addRecord putSites
  induction w.sites generalizing ws with
  | nil => rfl
  | cons site sites ih =>
    rw [List.foldl_cons, List.foldl_cons, addWarning_collected]
    exact ih (putSite w.key site ws)

theorem foldl_addRecord_collected (limit : Nat) (es : List ErrorRecord)
    (ws records : List WarningRecord) :
    records.foldl addRecord (collected limit es ws) =
      collected limit es (putRecords ws records) := by
  induction records generalizing ws with
  | nil => rfl
  | cons w records ih =>
    rw [List.foldl_cons, addRecord_collected, ih]
    rfl

/-- The record of a warning, with its places in the order in which they were found. -/
def record (fs : List Finding) (key : WarningCode × String) : WarningRecord :=
  .ofKey key (fs.filterMap (Finding.siteOf? key))

/-- One record for each warning, in the order in which they were found first. -/
def records (fs : List Finding) : List WarningRecord :=
  (fs.filterMap Finding.key?).eraseDups.map (record fs)

/-- What a collection with a limit holds of these findings. -/
def summary (limit : Nat) (fs : List Finding) : Diagnostics :=
  collected limit (fs.filterMap Finding.error?) (records fs)

theorem eraseDups_concat {α : Type} [BEq α] [LawfulBEq α] (xs : List α) (x : α) :
    (xs ++ [x]).eraseDups = if x ∈ xs then xs.eraseDups else xs.eraseDups ++ [x] := by
  rw [List.eraseDups_append]
  split_ifs with hmem
  · simp [List.removeAll, hmem]
  · simp [List.removeAll, hmem, List.eraseDups_cons]

theorem nodup_eraseDups {α : Type} [BEq α] [LawfulBEq α] (xs : List α) : xs.eraseDups.Nodup := by
  induction xs using List.reverseRecOn with
  | nil => simp
  | append_singleton xs x ih =>
    rw [eraseDups_concat]
    split_ifs with hmem
    · exact ih
    · rw [← List.concat_eq_append]
      exact ih.concat (mt List.mem_eraseDups.mp hmem)

theorem keys_records (fs : List Finding) :
    (records fs).map (·.key) = (fs.filterMap Finding.key?).eraseDups := by
  rw [records, List.map_map]
  exact List.map_id _

theorem mem_filterMap_key? {fs : List Finding} {key : WarningCode × String} :
    key ∈ fs.filterMap Finding.key? ↔ fs.filterMap (Finding.siteOf? key) ≠ [] := by
  rw [List.mem_filterMap, ne_eq, List.filterMap_eq_nil_iff]
  constructor
  · rintro ⟨f, hf, hkey⟩ hnone
    cases f with
    | error => cases hkey
    | warning code message site =>
      have hsite := hnone _ hf
      rw [Finding.siteOf?, if_pos (Option.some.inj hkey)] at hsite
      cases hsite
  · intro hsome
    by_contra hnot
    refine hsome fun f hf => ?_
    cases f with
    | error => rfl
    | warning code message site =>
      exact if_neg fun hkey => hnot ⟨_, hf, congrArg some hkey⟩

theorem sites_ne_nil (fs : List Finding) : ∀ w ∈ records fs, w.sites ≠ [] := by
  intro w hw
  obtain ⟨key, hkey, rfl⟩ := List.mem_map.mp hw
  exact mem_filterMap_key?.mp (List.mem_eraseDups.mp hkey)

theorem putSite_map {keys : List (WarningCode × String)} (hnodup : keys.Nodup)
    {key : WarningCode × String} (hmem : key ∈ keys) (site : WarningSite)
    (sites : WarningCode × String → List WarningSite) :
    putSite key site (keys.map fun k => .ofKey k (sites k)) =
      keys.map fun k => .ofKey k (sites k ++ if key = k then [site] else []) := by
  induction keys with
  | nil => cases hmem
  | cons k keys ih =>
    obtain ⟨hnot, hnodup⟩ := List.nodup_cons.mp hnodup
    rw [List.map_cons, putSite_cons, List.map_cons, WarningRecord.key_ofKey]
    by_cases hkey : k = key
    · have hrest : keys.map (fun k => WarningRecord.ofKey k (sites k)) =
          keys.map fun k => .ofKey k (sites k ++ if key = k then [site] else []) := by
        refine List.map_congr_left fun k' hk' => ?_
        have hne : key ≠ k' := by
          rintro rfl
          exact hnot (hkey ▸ hk')
        rw [if_neg hne, List.append_nil]
      rw [if_pos hkey, if_pos hkey.symm, hrest]
      rfl
    · have hmem : key ∈ keys := (List.mem_cons.mp hmem).resolve_left (Ne.symm hkey)
      rw [if_neg hkey, if_neg (Ne.symm hkey), List.append_nil, ih hnodup hmem]

theorem records_concat_error (fs : List Finding) (e : ErrorRecord) :
    records (fs ++ [.error e]) = records fs := by
  have hrecord : record (fs ++ [.error e]) = record fs := by
    funext key
    rw [record, List.filterMap_append]
    exact congrArg _ (List.append_nil _)
  rw [records, List.filterMap_append, hrecord]
  exact congrArg (fun keys => keys.eraseDups.map (record fs)) (List.append_nil _)

theorem records_concat_warning (fs : List Finding) (code : WarningCode) (message : String)
    (site : WarningSite) :
    records (fs ++ [.warning code message site]) = putSite (code, message) site (records fs) := by
  have hrecord (key : WarningCode × String) :
      record (fs ++ [Finding.warning code message site]) key = .ofKey key
        (fs.filterMap (Finding.siteOf? key) ++ if (code, message) = key then [site] else []) := by
    rw [record, List.filterMap_append]
    by_cases hkey : (code, message) = key
    · simp [Finding.siteOf?, hkey]
    · simp [Finding.siteOf?, hkey]
  have hkeys : (fs ++ [Finding.warning code message site]).filterMap Finding.key? =
      fs.filterMap Finding.key? ++ [(code, message)] := List.filterMap_append
  rw [records, hkeys, eraseDups_concat, funext hrecord]
  split_ifs with hmem
  · exact (putSite_map (nodup_eraseDups _) (List.mem_eraseDups.mpr hmem) site _).symm
  · have hnone : fs.filterMap (Finding.siteOf? (code, message)) = [] :=
      by_contra fun hsome => hmem (mem_filterMap_key?.mpr hsome)
    have hnot : (code, message) ∉ (records fs).map (·.key) := by
      rw [keys_records]
      exact mt List.mem_eraseDups.mp hmem
    rw [putSite_of_notMem hnot, records, List.map_append, List.map_singleton, hnone, if_pos rfl]
    refine congrArg (· ++ _) (List.map_congr_left fun key hkey => ?_)
    have hne : (code, message) ≠ key := by
      rintro rfl
      exact hmem (List.mem_eraseDups.mp hkey)
    rw [if_neg hne, List.append_nil, record]

theorem addAll_new (limit : Nat) (fs : List Finding) :
    (new limit).addAll fs = summary limit fs := by
  induction fs using List.reverseRecOn with
  | nil =>
    have hkept : kept limit [] = [] := List.prefix_nil.mp (kept_isPrefix limit [])
    show new limit = ⟨limit, kept limit [], 0 - (kept limit []).length, [], []⟩
    rw [hkept]
    rfl
  | append_singleton fs f ih =>
    rw [addAll_append, ih]
    cases f with
    | error e =>
      show (summary limit fs).addError e = _
      rw [summary, addError_collected, summary, records_concat_error, List.filterMap_append]
      rfl
    | warning code message site =>
      show (summary limit fs).addWarning code message site = _
      rw [summary, addWarning_collected, summary, records_concat_warning, List.filterMap_append]
      exact congrArg (collected limit · _) (List.append_nil _).symm

theorem putRecords_records (fs gs : List Finding) :
    putRecords (records fs) (records gs) = records (fs ++ gs) := by
  induction gs using List.reverseRecOn with
  | nil =>
    rw [List.append_nil]
    rfl
  | append_singleton gs g ih =>
    rw [← List.append_assoc]
    cases g with
    | error e => rw [records_concat_error, records_concat_error, ih]
    | warning code message site =>
      have hnodup : ((records gs).map (·.key)).Nodup := by
        rw [keys_records]
        exact nodup_eraseDups (gs.filterMap Finding.key?)
      rw [records_concat_warning, records_concat_warning,
        putRecords_putSite hnodup (sites_ne_nil gs), ih]

theorem errorCount_collected (limit : Nat) (es : List ErrorRecord) (ws : List WarningRecord) :
    (collected limit es ws).errorCount = es.length := by
  have hle : (kept limit es).length ≤ es.length := (kept_isPrefix limit es).length_le
  show (kept limit es).length + (es.length - (kept limit es).length) = es.length
  omega

/-- Errors that were counted elsewhere are counted once. -/
theorem addErrors_kept (limit : Nat) (es fs : List ErrorRecord) (ws : List WarningRecord) :
    let d := (collected limit es ws).addErrors (kept limit fs)
    { d with suppressed := d.suppressed + (fs.length - (kept limit fs).length) } =
      collected limit (es ++ fs) ws := by
  intro d
  have hd : d = collected limit (es ++ kept limit fs) ws := addErrors_collected ..
  have hkept : kept limit (es ++ kept limit fs) = kept limit (es ++ fs) := kept_append ..
  have hfs : (kept limit fs).length ≤ fs.length := (kept_isPrefix limit fs).length_le
  have hes := (kept_isPrefix limit (es ++ kept limit fs)).length_le
  rw [hkept, List.length_append] at hes
  rw [hd]
  simp only [collected, hkept, List.length_append, Diagnostics.mk.injEq, true_and, and_true]
  omega

theorem append_summary (limit : Nat) (fs gs : List Finding) :
    (summary limit fs).append (summary limit gs) = (summary limit (fs ++ gs), new limit) := by
  have herrors := addErrors_kept limit (fs.filterMap Finding.error?)
    (gs.filterMap Finding.error?) (records fs)
  have hmoved : (summary limit fs).append (summary limit gs) =
      ((records gs).foldl addRecord (collected limit
        (fs.filterMap Finding.error? ++ gs.filterMap Finding.error?) (records fs)), new limit) :=
    congrArg (fun d => ((records gs).foldl addRecord d, new limit)) herrors
  rw [hmoved, foldl_addRecord_collected, putRecords_records, ← List.filterMap_append]
  rfl

/-- The index of a collection leads from each key to the place of the record with that key. -/
theorem lookup_index_addAll (limit : Nat) (fs : List Finding) (key : WarningCode × String)
    (i : Nat) :
    ((new limit).addAll fs).index.lookup key = some i ↔
      ((new limit).addAll fs).warnings[i]?.map (·.key) = some key := by
  have hnodup : ((records fs).map (·.key)).Nodup := by
    rw [keys_records]
    exact nodup_eraseDups _
  rw [addAll_new]
  exact lookup_indexOf_eq_some_iff hnodup

/-- Reports that were collected apart are held as if one collection had been given the first ones
and then the others, and the index finds the record of each warning. Nothing is left in the
collection that they are taken from: it holds of later reports what a new one with its limit
holds. -/
theorem append_addAll (limit : Nat) (fs gs : List Finding) :
    let d := ((new limit).addAll fs).append ((new limit).addAll gs)
    d = ((new limit).addAll (fs ++ gs), new limit) ∧
      d.1.errors = kept limit ((fs ++ gs).filterMap Finding.error?) ∧
      d.1.errorCount = ((fs ++ gs).filterMap Finding.error?).length ∧
      d.1.warnings = records (fs ++ gs) ∧
      (∀ key i, d.1.index.lookup key = some i ↔ d.1.warnings[i]?.map (·.key) = some key) ∧
      d.2.isEmpty = true ∧ ∀ hs, d.2.addAll hs = summary limit hs := by
  intro d
  have hd : d = ((new limit).addAll (fs ++ gs), new limit) := by
    rw [addAll_new limit (fs ++ gs), ← append_summary, ← addAll_new, ← addAll_new]
  rw [hd]
  refine ⟨rfl, ?_, ?_, ?_, lookup_index_addAll limit (fs ++ gs), rfl, addAll_new limit⟩
  · rw [addAll_new]
    rfl
  · rw [addAll_new]
    exact errorCount_collected ..
  · rw [addAll_new]
    rfl

end Diagnostics
end ScriptFront
