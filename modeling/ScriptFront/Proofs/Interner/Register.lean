import ScriptFront.Proofs.Lookup
import ScriptFront.Proofs.Token.Refusal
import Mathlib.Data.List.Basic
import Mathlib.Data.List.Nodup

/-! A table of names as a register: the texts that were entered, in their order. Main statement:
whatever the hash, all answers of a table are those of a register, which has no shards, and in a
register each text has one name. -/
namespace ScriptFront

inductive NameCall
  | intern (text : String)
  | get (hash : UInt64)
  | size
  deriving DecidableEq, Repr

inductive NameAnswer
  | name (name : Name)
  | collision (c : Collision)
  | absent
  | size (n : Nat)
  deriving DecidableEq, Repr

namespace Interner

variable {hash : NameHash}

def answer (t : Interner hash) : NameCall → NameAnswer × Interner hash
  | .intern text =>
    match t.intern text with
    | .ok (name, t') => (.name name, t')
    | .error c => (.collision c, t)
  | .get h =>
    match t.get? h with
    | some name => (.name name, t)
    | none => (.absent, t)
  | .size => (.size t.size, t)

/-- The answers to calls one after the other, and the table after them. -/
def run (t : Interner hash) : List NameCall → List NameAnswer × Interner hash
  | [] => ([], t)
  | call :: calls =>
    let (answer, t') := t.answer call
    let (answers, t'') := t'.run calls
    (answer :: answers, t'')

end Interner

namespace Register

variable (hash : NameHash)

/-- The name of a text that is in the register. Its number is the place of the text. -/
def nameOf (texts : List String) (text : String) : Name := ⟨texts.idxOf text, hash text, text⟩

/-- What a call is answered, and the register after it. -/
inductive Step : List String → NameCall → NameAnswer → List String → Prop
  | known {texts : List String} {text : String} (hmem : text ∈ texts)
      (honly : ∀ other ∈ texts, hash other = hash text → other = text) :
      Step texts (.intern text) (.name (nameOf hash texts text)) texts
  | refused {texts : List String} {text other : String} (hmem : other ∈ texts) (hne : other ≠ text)
      (hhash : hash other = hash text)
      (honly : ∀ u ∈ texts, hash u = hash text → u = other) :
      Step texts (.intern text) (.collision ⟨hash text, other, text⟩) texts
  | entered {texts : List String} {text : String} (hnew : ∀ other ∈ texts, hash other ≠ hash text) :
      Step texts (.intern text) (.name (nameOf hash (texts ++ [text]) text)) (texts ++ [text])
  | found {texts : List String} {text : String} {h : UInt64} (hmem : text ∈ texts)
      (hhash : hash text = h) (honly : ∀ other ∈ texts, hash other = h → other = text) :
      Step texts (.get h) (.name (nameOf hash texts text)) texts
  | absent {texts : List String} {h : UInt64} (hnone : ∀ text ∈ texts, hash text ≠ h) :
      Step texts (.get h) .absent texts
  | size (texts : List String) : Step texts .size (.size texts.length) texts

/-- Calls one after the other. -/
inductive Run : List String → List NameCall → List NameAnswer → List String → Prop
  | nil (texts : List String) : Run texts [] [] texts
  | cons {texts texts' texts'' : List String} {call : NameCall} {calls : List NameCall}
      {answer : NameAnswer} {answers : List NameAnswer} (hstep : Step hash texts call answer texts')
      (hrun : Run texts' calls answers texts'') :
      Run texts (call :: calls) (answer :: answers) texts''

variable {hash} {texts texts' : List String} {call : NameCall} {calls : List NameCall}
  {answer : NameAnswer} {answers : List NameAnswer}

theorem Step.isPrefix (h : Step hash texts call answer texts') : texts <+: texts' := by
  cases h with
  | entered => exact List.prefix_append _ _
  | _ => exact List.prefix_rfl

theorem Run.isPrefix (h : Run hash texts calls answers texts') : texts <+: texts' := by
  induction h with
  | nil => exact List.prefix_rfl
  | cons hstep _ ih => exact hstep.isPrefix.trans ih

/-- There is one answer to a call. -/
theorem Step.unique {answer' : NameAnswer} {texts'' : List String}
    (h : Step hash texts call answer texts') (h' : Step hash texts call answer' texts'') :
    answer' = answer ∧ texts'' = texts' := by
  cases h with
  | known hmem honly =>
    cases h' with
    | known => exact ⟨rfl, rfl⟩
    | refused hother hne hhash => exact absurd (honly _ hother hhash) hne
    | entered hnew => exact absurd rfl (hnew _ hmem)
  | refused hother hne hhash honly =>
    cases h' with
    | known _ honly' => exact absurd (honly' _ hother hhash) hne
    | refused hother' _ hhash' =>
      obtain rfl := honly _ hother' hhash'
      exact ⟨rfl, rfl⟩
    | entered hnew => exact absurd hhash (hnew _ hother)
  | entered hnew =>
    cases h' with
    | known hmem => exact absurd rfl (hnew _ hmem)
    | refused hother _ hhash => exact absurd hhash (hnew _ hother)
    | entered => exact ⟨rfl, rfl⟩
  | found hmem hhash honly =>
    cases h' with
    | found hmem' hhash' =>
      obtain rfl := honly _ hmem' hhash'
      exact ⟨rfl, rfl⟩
    | absent hnone => exact absurd hhash (hnone _ hmem)
  | absent hnone =>
    cases h' with
    | found hmem hhash => exact absurd hhash (hnone _ hmem)
    | absent => exact ⟨rfl, rfl⟩
  | size =>
    cases h'
    exact ⟨rfl, rfl⟩

theorem Run.unique {answers' : List NameAnswer} {texts'' : List String}
    (h : Run hash texts calls answers texts') (h' : Run hash texts calls answers' texts'') :
    answers' = answers ∧ texts'' = texts' := by
  induction h generalizing answers' texts'' with
  | nil =>
    cases h'
    exact ⟨rfl, rfl⟩
  | cons hstep _ ih =>
    cases h' with
    | cons hstep' hrun' =>
      obtain ⟨rfl, rfl⟩ := hstep.unique hstep'
      obtain ⟨rfl, rfl⟩ := ih hrun'
      exact ⟨rfl, rfl⟩

/-- A name stays the same however many texts are entered after it. -/
theorem nameOf_of_isPrefix (h : texts <+: texts') {text : String} (ht : text ∈ texts) :
    nameOf hash texts' text = nameOf hash texts text := by
  obtain ⟨more, rfl⟩ := h
  rw [nameOf, nameOf, List.idxOf_append_of_mem ht]

theorem Step.exists_nameOf {a : Name} (h : Step hash texts call (.name a) texts') :
    ∃ text ∈ texts', a = nameOf hash texts' text := by
  cases h with
  | known hmem | found hmem => exact ⟨_, hmem, rfl⟩
  | entered => exact ⟨_, List.mem_append_right _ List.mem_cons_self, rfl⟩

/-- Each name that was given out is that of a text in the register. -/
theorem Run.exists_nameOf (h : Run hash texts calls answers texts') {a : Name}
    (ha : .name a ∈ answers) : ∃ text ∈ texts', a = nameOf hash texts' text := by
  induction h with
  | nil => cases ha
  | cons hstep hrun ih =>
    rcases List.mem_cons.mp ha with rfl | ha
    · obtain ⟨text, ht, rfl⟩ := hstep.exists_nameOf
      exact ⟨text, hrun.isPrefix.subset ht, (nameOf_of_isPrefix hrun.isPrefix ht).symm⟩
    · exact ih ha

theorem Step.mem_iff (h : Step hash texts call answer texts') (text : String) :
    text ∈ texts' ↔ text ∈ texts ∨ ∃ a, call = .intern text ∧ answer = .name a := by
  cases h with
  | entered => simp [eq_comm]
  | known hmem =>
    refine ⟨.inl, Or.rec id ?_⟩
    rintro ⟨a, hcall, -⟩
    cases hcall
    exact hmem
  | _ => simp

/-- In the register are the texts that were there at first and those that were entered. -/
theorem Run.mem_iff (h : Run hash texts calls answers texts') (text : String) :
    text ∈ texts' ↔
      text ∈ texts ∨ ∃ a, (NameCall.intern text, NameAnswer.name a) ∈ calls.zip answers := by
  induction h with
  | nil => simp
  | cons hstep _ ih =>
    rw [ih, hstep.mem_iff, or_assoc]
    simp only [List.zip_cons_cons, List.mem_cons, Prod.mk.injEq, exists_or, eq_comm]

end Register

namespace Interner

open Register (nameOf Step Run)

variable {hash : NameHash}

/-- The table has the names of the texts and no others. The shards do not matter. -/
structure Enters (t : Interner hash) (texts : List String) : Prop where
  size : t.size = texts.length
  nodup : (texts.map hash).Nodup
  get? : ∀ h, t.get? h = (texts.find? fun text => hash text == h).map (nameOf hash texts)

namespace Enters

variable {t : Interner hash} {texts : List String}

theorem eq_of_hash_eq (h : t.Enters texts) {u v : String} (hu : u ∈ texts) (hv : v ∈ texts)
    (huv : hash u = hash v) : u = v :=
  List.inj_on_of_nodup_map h.nodup hu hv huv

theorem get?_of_mem (h : t.Enters texts) {text : String} (ht : text ∈ texts) :
    t.get? (hash text) = some (nameOf hash texts text) := by
  rw [h.get?, find?_key_of_nodup h.nodup ht]
  rfl

theorem get?_of_forall_ne (h : t.Enters texts) {k : UInt64} (hk : ∀ text ∈ texts, hash text ≠ k) :
    t.get? k = none := by
  have hfind : texts.find? (fun u => hash u == k) = none :=
    List.find?_eq_none.mpr fun u hu => by simpa using hk u hu
  rw [h.get?, hfind]
  rfl

/-- A text is entered if no text that is there has its hash. -/
theorem intern_new (h : t.Enters texts) {text : String}
    (hnew : ∀ other ∈ texts, hash other ≠ hash text) :
    ∃ t', t.intern text = .ok (nameOf hash (texts ++ [text]) text, t') ∧
      t'.Enters (texts ++ [text]) := by
  have hmem : text ∉ texts := fun ht => hnew text ht rfl
  have hplace : (texts ++ [text]).idxOf text = t.size := by
    rw [List.idxOf_append_of_notMem hmem, List.idxOf_cons_self, h.size, Nat.add_zero]
  let name : Name := ⟨t.size, hash text, text⟩
  have hname : nameOf hash (texts ++ [text]) text = name := by rw [nameOf, hplace]
  let i := shardOf (hash text)
  refine ⟨⟨t.shards.set i (name :: t.shards[i]), t.size + 1⟩, ?_, ?_, ?_, fun k => ?_⟩
  · rw [intern, h.get?_of_forall_ne hnew, hname]
  · rw [List.length_append, h.size, List.length_singleton]
  · rw [List.map_append, List.map_singleton, ← List.concat_eq_append]
    refine h.nodup.concat fun hin => ?_
    obtain ⟨other, hother, heq⟩ := List.mem_map.mp hin
    exact hnew other hother heq
  · refine (get?_push t name (t.size + 1) k).trans ?_
    rw [List.find?_append]
    by_cases hk : hash text = k
    · have hnone : texts.find? (fun u => hash u == k) = none :=
        List.find?_eq_none.mpr fun u hu => by simpa [← hk] using hnew u hu
      rw [hnone, if_pos hk, ← hname]
      simp [hk]
    · have hnone : [text].find? (fun u => hash u == k) = none := by simpa using hk
      rw [hnone, if_neg hk, h.get?, Option.or_none]
      refine Option.map_congr fun u hu => ?_
      have hmore : texts <+: texts ++ [text] := List.prefix_append _ _
      exact (Register.nameOf_of_isPrefix hmore (List.mem_of_find?_eq_some hu)).symm

/-- One call is answered as by the register. -/
theorem step (h : t.Enters texts) (call : NameCall) :
    ∃ texts', Step hash texts call (t.answer call).1 texts' ∧ (t.answer call).2.Enters texts' := by
  cases call with
  | intern text =>
    by_cases hmem : text ∈ texts
    · have hrun : t.intern text = .ok (nameOf hash texts text, t) := by
        rw [intern, h.get?_of_mem hmem]
        exact if_pos rfl
      rw [answer, hrun]
      exact ⟨texts, .known hmem fun other hother heq => h.eq_of_hash_eq hother hmem heq, h⟩
    by_cases hnew : ∀ other ∈ texts, hash other ≠ hash text
    · obtain ⟨t', hrun, ht'⟩ := h.intern_new hnew
      rw [answer, hrun]
      exact ⟨texts ++ [text], .entered hnew, ht'⟩
    · simp only [not_forall, ne_eq, not_not] at hnew
      obtain ⟨other, hother, heq⟩ := hnew
      have hne : other ≠ text := fun h => hmem (h ▸ hother)
      have hfound : t.get? (hash text) = some (nameOf hash texts other) :=
        heq ▸ h.get?_of_mem hother
      have hrun : t.intern text = .error ⟨hash text, other, text⟩ := by
        rw [intern, hfound]
        exact if_neg hne
      rw [answer, hrun]
      refine ⟨texts, .refused hother hne heq fun u hu huv => ?_, h⟩
      exact h.eq_of_hash_eq hu hother (huv.trans heq.symm)
  | get k =>
    by_cases hnone : ∀ text ∈ texts, hash text ≠ k
    · rw [answer, h.get?_of_forall_ne hnone]
      exact ⟨texts, .absent hnone, h⟩
    · simp only [not_forall, ne_eq, not_not] at hnone
      obtain ⟨text, hmem, rfl⟩ := hnone
      rw [answer, h.get?_of_mem hmem]
      exact ⟨texts, .found hmem rfl fun other hother heq => h.eq_of_hash_eq hother hmem heq, h⟩
  | size =>
    rw [answer, h.size]
    exact ⟨texts, .size texts, h⟩

theorem run (h : t.Enters texts) (calls : List NameCall) :
    ∃ texts', Run hash texts calls (t.run calls).1 texts' ∧ (t.run calls).2.Enters texts' := by
  induction calls generalizing t texts with
  | nil => exact ⟨texts, .nil texts, h⟩
  | cons call calls ih =>
    obtain ⟨texts', hstep, h'⟩ := h.step call
    obtain ⟨texts'', hrun, h''⟩ := ih h'
    exact ⟨texts'', .cons hstep hrun, h''⟩

theorem internAll (h : t.Enters texts) {words : List String}
    (hwords : ((texts ++ words).map hash).Nodup) : (t.internAll words).Enters (texts ++ words) := by
  induction words generalizing t texts with
  | nil =>
    rw [List.append_nil]
    exact h
  | cons word words ih =>
    have hnew : ∀ other ∈ texts, hash other ≠ hash word := by
      rw [List.map_append] at hwords
      exact fun other hother => (List.nodup_append.mp hwords).2.2 _ (List.mem_map_of_mem hother) _
        List.mem_cons_self
    obtain ⟨t', hrun, h'⟩ := h.intern_new hnew
    rw [List.append_cons] at hwords ⊢
    have hstep : t.internAll (word :: words) = t'.internAll words := by
      rw [Interner.internAll, List.foldl_cons, hrun]
      rfl
    rw [hstep]
    exact ih h' hwords

end Enters

theorem empty_enters : (empty : Interner hash).Enters [] := by
  refine ⟨rfl, List.nodup_nil, fun h => ?_⟩
  simp [get?, empty]

/-- A new table has the words of the language, if no two of them have one hash. -/
theorem new_enters (hwords : Set.InjOn hash {w | w ∈ languageWords}) :
    (new : Interner hash).Enters languageWords := by
  have hnodup : languageWords.Nodup := by decide
  exact empty_enters.internAll (hnodup.map_on fun u hu v hv huv => hwords hu hv huv)

/-- Whatever the hash and the calls, the table gives the only answers that a register gives: in it
each text that was entered has one name, and the size is the number of these texts. Of two names all
parts are the same, or none is. -/
theorem run_new (hwords : Set.InjOn hash {w | w ∈ languageWords}) (calls : List NameCall) :
    let r := (new : Interner hash).run calls
    ∃ texts, Run hash languageWords calls r.1 texts ∧
      (∀ answers texts', Run hash languageWords calls answers texts' → answers = r.1) ∧
      texts.Nodup ∧ r.2.size = texts.length ∧
      (∀ text, text ∈ texts ↔ text ∈ languageWords ∨
        ∃ a, (NameCall.intern text, NameAnswer.name a) ∈ calls.zip r.1) ∧
      ∀ a b, .name a ∈ r.1 → .name b ∈ r.1 →
        (a.number = b.number ↔ a.text = b.text) ∧ (a.text = b.text ↔ a.hash = b.hash) := by
  intro r
  obtain ⟨texts, hrun, h⟩ := (new_enters hwords).run calls
  refine ⟨texts, hrun, fun _ _ hrun' => (hrun.unique hrun').1, h.nodup.of_map hash, h.size,
    hrun.mem_iff, fun a b ha hb => ?_⟩
  obtain ⟨u, hu, rfl⟩ := hrun.exists_nameOf ha
  obtain ⟨v, hv, rfl⟩ := hrun.exists_nameOf hb
  exact ⟨List.idxOf_inj hu, congrArg hash, h.eq_of_hash_eq hu hv⟩

/-- A hash that is good for nothing but the words of the language. -/
theorem run_new_poor_hash :
    let hash : NameHash := fun s => .ofNat (languageWords.idxOf s)
    let calls : List NameCall :=
      [.get 29, .intern "x", .intern "y", .size, .intern "void", .get 29, .intern "x", .size]
    let r := (new : Interner hash).run calls
    Set.InjOn hash {w | w ∈ languageWords} ∧
      r.1 = [.absent, .name ⟨29, 29, "x"⟩, .collision ⟨29, "x", "y"⟩, .size 30,
        .name ⟨15, 15, "void"⟩, .name ⟨29, 29, "x"⟩, .name ⟨29, 29, "x"⟩, .size 30] ∧
      ∃ texts, Run hash languageWords calls r.1 texts ∧ texts.Nodup ∧ texts.length = 30 := by
  intro hash calls r
  have hwords : Set.InjOn hash {w | w ∈ languageWords} := by
    have hall : ∀ u ∈ languageWords, ∀ v ∈ languageWords, hash u = hash v → u = v := by
      decide +kernel
    exact fun u hu v hv => hall u hu v hv
  obtain ⟨texts, hrun, -, hnodup, hsize, -⟩ := run_new hwords calls
  refine ⟨hwords, by decide +kernel, texts, hrun, hnodup, ?_⟩
  rw [← hsize]
  decide +kernel

end Interner

end ScriptFront
