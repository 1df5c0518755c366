import Mathlib.Data.List.Nodup

/-! Looking an element of a list up by its key. -/
namespace ScriptFront

variable {α κ : Type} [BEq κ] {key : α → κ} {l : List α} {a : α}

/-- Elements that are changed but keep their keys are found as before. -/
theorem find?_key_map {f : α → α} (hf : ∀ a, key (f a) = key a) (l : List α) (k : κ) :
    (l.map f).find? (key · == k) = (l.find? (key · == k)).map f := by
  rw [List.find?_map]
  simp only [Function.comp_def, hf]

variable [LawfulBEq κ]

/-- An element is found by its key, if no other one has the key. -/
theorem find?_key_of_nodup (hnodup : (l.map key).Nodup) (ha : a ∈ l) :
    l.find? (fun b => key b == key a) = some a := by
  rcases hfind : l.find? (fun b => key b == key a) with _ | b
  · exact absurd (List.find?_eq_none.mp hfind a ha) (by simp)
  · have hb : key b = key a := by simpa using List.find?_some hfind
    rw [List.inj_on_of_nodup_map hnodup (List.mem_of_find?_eq_some hfind) ha hb]

end ScriptFront
