import Mathlib.Data.List.Induction
import Mathlib.Data.List.Nodup
import ScriptFront.Diagnostic.Collection

/-! Warnings with their places. A record is found again by its code and message, so the places of
different warnings can be added in any order. The index of a collection finds the record that a
search through all of them finds. -/
namespace ScriptFront

namespace WarningRecord

/-- What tells a warning from others. -/
def key (w : WarningRecord) : WarningCode × String := (w.code, w.message)

def ofKey (key : WarningCode × String) (sites : List WarningSite) : WarningRecord :=
  ⟨key.1, key.2, sites⟩

@[simp] theorem key_ofKey (key : WarningCode × String) (sites : List WarningSite) :
    (ofKey key sites).key = key := rfl

@[simp] theorem key_addSite (w : WarningRecord) (site : WarningSite) :
    (w.addSite site).key = w.key := rfl

end WarningRecord

namespace Diagnostics

/-- Adds a place to the warning with a key, or a new warning at the end. -/
def putSite (key : WarningCode × String) (site : WarningSite) :
    List WarningRecord → List WarningRecord
  | [] => [.ofKey key [site]]
  | w :: ws => if w.key = key then w.addSite site :: ws else w :: putSite key site ws

def putSites (key : WarningCode × String) (ws : List WarningRecord) (sites : List WarningSite) :
    List WarningRecord := sites.foldl (fun ws site => putSite key site ws) ws

def putRecords (ws records : List WarningRecord) : List WarningRecord :=
  records.foldl (fun ws w => putSites w.key ws w.sites) ws

/-- The index of these records: the key of each one with its place. -/
def indexOf (ws : List WarningRecord) : List ((WarningCode × String) × Nat) :=
  (ws.map (·.key)).zipIdx

variable {key key' : WarningCode × String} {site : WarningSite} {ws : List WarningRecord}

theorem putSite_cons (key : WarningCode × String) (site : WarningSite) (w : WarningRecord)
    (ws : List WarningRecord) : putSite key site (w :: ws) =
      if w.key = key then w.addSite site :: ws else w :: putSite key site ws := rfl

theorem putSite_of_notMem (h : key ∉ ws.map (·.key)) :
    putSite key site ws = ws ++ [.ofKey key [site]] := by
  induction ws with
  | nil => rfl
  | cons w ws ih =>
    obtain ⟨hne, hrest⟩ := not_or.mp (mt List.mem_cons.mpr h)
    rw [putSite_cons, if_neg (Ne.symm hne), ih hrest, List.cons_append]

theorem keys_putSite (key : WarningCode × String) (site : WarningSite) (ws : List WarningRecord) :
    (putSite key site ws).map (·.key) =
      if key ∈ ws.map (·.key) then ws.map (·.key) else ws.map (·.key) ++ [key] := by
  induction ws with
  | nil => rfl
  | cons w ws ih =>
    rw [putSite_cons]
    by_cases hw : w.key = key
    · rw [if_pos hw, if_pos (List.mem_map.mpr ⟨w, List.mem_cons_self, hw⟩)]
      rfl
    · simp only [if_neg hw, List.map_cons, ih, List.mem_cons, Ne.symm hw, false_or]
      split_ifs <;> rfl

theorem mem_keys_putSite (h : key ∈ ws.map (·.key)) (key' : WarningCode × String)
    (site : WarningSite) : key ∈ (putSite key' site ws).map (·.key) := by
  rw [keys_putSite]
  split_ifs
  · exact h
  · exact List.mem_append_left _ h

theorem mem_keys_putSite_self (key : WarningCode × String) (site : WarningSite)
    (ws : List WarningRecord) : key ∈ (putSite key site ws).map (·.key) := by
  rw [keys_putSite]
  split_ifs with hmem
  · exact hmem
  · exact List.mem_append_right _ List.mem_cons_self

/-- Places of different warnings may come in any order, once there is a record for the first. -/
theorem putSite_comm (hne : key ≠ key') (hmem : key ∈ ws.map (·.key)) (site' : WarningSite) :
    putSite key' site' (putSite key site ws) = putSite key site (putSite key' site' ws) := by
  induction ws with
  | nil => cases hmem
  | cons w ws ih =>
    by_cases hw : w.key = key
    · have hw' : w.key ≠ key' := fun heq => hne (hw.symm.trans heq)
      have hsame : (w.addSite site).key ≠ key' := hw'
      rw [putSite_cons key, if_pos hw, putSite_cons key', if_neg hsame, putSite_cons key',
        if_neg hw', putSite_cons key, if_pos hw]
    · have hrest : key ∈ ws.map (·.key) := by
        rcases List.mem_cons.mp hmem with heq | hrest
        · exact absurd heq.symm hw
        · exact hrest
      rw [putSite_cons key, if_neg hw, putSite_cons key', putSite_cons key']
      split_ifs with hw'
      · have hsame : (w.addSite site').key ≠ key := hw
        rw [putSite_cons key, if_neg hsame]
      · rw [putSite_cons key, if_neg hw, ih hrest]

theorem putSites_putSite (hne : key ≠ key') (hmem : key ∈ ws.map (·.key))
    (sites : List WarningSite) :
    putSites key' (putSite key site ws) sites = putSite key site (putSites key' ws sites) := by
  induction sites generalizing ws with
  | nil => rfl
  | cons site' sites ih =>
    have hrest := ih (mem_keys_putSite hmem key' site')
    unfold putSites at hrest ⊢
    rw [List.foldl_cons, List.foldl_cons, putSite_comm hne hmem, hrest]

theorem mem_keys_putSites (h : key ∈ ws.map (·.key)) (key' : WarningCode × String)
    (sites : List WarningSite) : key ∈ (putSites key' ws sites).map (·.key) := by
  induction sites generalizing ws with
  | nil => exact h
  | cons site' sites ih => exact ih (mem_keys_putSite h key' site')

theorem mem_keys_putSites_self {sites : List WarningSite} (h : sites ≠ [])
    (key : WarningCode × String) (ws : List WarningRecord) :
    key ∈ (putSites key ws sites).map (·.key) := by
  cases sites with
  | nil => exact absurd rfl h
  | cons site sites => exact mem_keys_putSites (mem_keys_putSite_self key site ws) key sites

theorem putRecords_putSite_of_notMem {records : List WarningRecord}
    (hnot : key ∉ records.map (·.key)) (hmem : key ∈ ws.map (·.key)) (site : WarningSite) :
    putRecords (putSite key site ws) records = putSite key site (putRecords ws records) := by
  induction records generalizing ws with
  | nil => rfl
  | cons w records ih =>
    obtain ⟨hne, hnot⟩ := not_or.mp (mt List.mem_cons.mpr hnot)
    have hrest := ih hnot (mem_keys_putSites hmem w.key w.sites)
    unfold putRecords at hrest ⊢
    rw [List.foldl_cons, List.foldl_cons, putSites_putSite hne hmem, hrest]

/-- It is the same to add a place before or after the records are put to others. -/
theorem putRecords_putSite {records : List WarningRecord} (hnodup : (records.map (·.key)).Nodup)
    (hsites : ∀ w ∈ records, w.sites ≠ []) (key : WarningCode × String) (site : WarningSite)
    (ws : List WarningRecord) :
    putRecords ws (putSite key site records) = putSite key site (putRecords ws records) := by
  induction records generalizing ws with
  | nil => rfl
  | cons w records ih =>
    obtain ⟨hnot, hnodup⟩ := List.nodup_cons.mp hnodup
    obtain ⟨hw, hsites⟩ := List.forall_mem_cons.mp hsites
    rw [putSite_cons]
    split_ifs with heq
    · subst heq
      have hsplit : putSites w.key ws (w.sites ++ [site]) =
          putSite w.key site (putSites w.key ws w.sites) := List.foldl_append
      have hmem := mem_keys_putSites_self hw w.key ws
      have hrest := putRecords_putSite_of_notMem hnot hmem site
      rw [← hsplit] at hrest
      exact hrest
    · exact ih hnodup hsites _

/-! The index. -/

theorem lookup_zipIdx {α : Type} [BEq α] [LawfulBEq α] (x : α) (xs : List α) (n : Nat) :
    (xs.zipIdx n).lookup x = (xs.idxOf? x).map (· + n) := by
  induction xs generalizing n with
  | nil => rfl
  | cons y xs ih =>
    rw [List.zipIdx_cons, List.lookup_cons, List.idxOf?_cons]
    by_cases hxy : x = y
    · simp [hxy]
    · simp only [beq_false_of_ne hxy, beq_false_of_ne (Ne.symm hxy), ih (n + 1), Bool.false_eq_true,
        if_false, Option.map_map]
      refine Option.map_congr fun i _ => ?_
      exact (Nat.add_left_comm i n 1).trans (Nat.add_comm n (i + 1))

theorem lookup_indexOf (key : WarningCode × String) (ws : List WarningRecord) :
    (indexOf ws).lookup key = (ws.map (·.key)).idxOf? key := by
  rw [indexOf, lookup_zipIdx]
  exact congrFun Option.map_id _

theorem putSite_eq_modify {i : Nat} (h : (ws.map (·.key)).idxOf? key = some i) :
    putSite key site ws = ws.modify i (·.addSite site) := by
  induction ws generalizing i with
  | nil => cases h
  | cons w ws ih =>
    rw [List.map_cons, List.idxOf?_cons] at h
    rw [putSite_cons]
    by_cases hw : w.key = key
    · rw [if_pos (beq_iff_eq.mpr hw), Option.some.injEq] at h
      rw [if_pos hw, ← h]
      rfl
    · rw [if_neg (mt beq_iff_eq.mp hw), Option.map_eq_some_iff] at h
      obtain ⟨j, hj, rfl⟩ := h
      rw [if_neg hw, ih hj]
      rfl

theorem indexOf_modify (ws : List WarningRecord) (i : Nat) (site : WarningSite) :
    indexOf (ws.modify i (·.addSite site)) = indexOf ws := by
  have hkeys : (ws.modify i (·.addSite site)).map (·.key) = ws.map (·.key) := by
    refine List.ext_getElem? fun j => ?_
    simp only [List.getElem?_map, List.getElem?_modify]
    cases ws[j]? with
    | none => rfl
    | some w =>
      simp only [Option.map_some]
      split_ifs <;> rfl
  rw [indexOf, hkeys, indexOf]

/-- A warning that is looked up in the index is put to the record that a search finds. The index is
that of the records again. -/
theorem addWarning_eq {d : Diagnostics} (h : d.index = indexOf d.warnings) (code : WarningCode)
    (message : String) (site : WarningSite) :
    d.addWarning code message site =
      { d with
        warnings := putSite (code, message) site d.warnings
        index := indexOf (putSite (code, message) site d.warnings) } := by
  unfold addWarning
  rw [h, lookup_indexOf]
  cases hfound : (d.warnings.map (·.key)).idxOf? (code, message) with
  | some i => rw [putSite_eq_modify hfound, indexOf_modify, ← h]
  | none =>
    have hindex : indexOf (d.warnings ++ [.ofKey (code, message) [site]]) =
        indexOf d.warnings ++ [((code, message), d.warnings.length)] := by
      rw [indexOf, List.map_append, List.zipIdx_append, Nat.zero_add, List.length_map]
      rfl
    rw [putSite_of_notMem (List.idxOf?_eq_none_iff.mp hfound), hindex]
    rfl

/-- Where each warning has one record, the index finds the record with a key, and no other. -/
theorem lookup_indexOf_eq_some_iff (h : (ws.map (·.key)).Nodup) {i : Nat} :
    (indexOf ws).lookup key = some i ↔ ws[i]?.map (·.key) = some key := by
  rw [lookup_indexOf, ← List.getElem?_map, List.idxOf?_eq_some_iff, List.getElem?_eq_some_iff]
  refine exists_congr fun hi => and_iff_left_of_imp fun hkey j hj hsame => ?_
  exact Nat.ne_of_lt hj (h.getElem_inj_iff.mp (hsame.trans hkey.symm))

end Diagnostics
end ScriptFront
