import ScriptFront.Proofs.Token.Refusal

/-! The texts that a table of names has. -/
namespace ScriptFront

namespace Interner

variable {hash : NameHash}

/-- The text is in the table, where it is found by its hash. -/
def Knows (t : Interner hash) (text : String) : Prop :=
  ∃ name, t.get? (hash text) = some name ∧ name.text = text

variable {t t' : Interner hash} {text : String}

theorem intern_of_knows (h : t.Knows text) : ∃ name, t.intern text = .ok (name, t) := by
  obtain ⟨name, hfound, htext⟩ := h
  exact ⟨name, by simp only [intern, hfound, htext, if_true]⟩

/-- What is entered is in the table from then on, and nothing leaves it. -/
theorem knows_of_intern {name : Name} (h : t.intern text = .ok (name, t')) :
    t'.Knows text ∧ ∀ u, t.Knows u → t'.Knows u := by
  rcases t.intern_cases text with ⟨-, existing, he⟩ | ⟨haccepted, name', t'', hrun, hname, hfind⟩
  · rw [he] at h
    cases h
  · rw [hrun] at h
    cases h
    refine ⟨⟨name, by rw [hfind, if_pos rfl], hname⟩, fun u ⟨other, hother, hu⟩ => ?_⟩
    by_cases hh : hash text = hash u
    · -- a text that is not refused is the one that has its hash already
      rw [refuses, hh, hother] at haccepted
      have htext : other.text = text := by simpa using haccepted
      exact ⟨name, by rw [hfind, if_pos hh], by rw [hname, ← htext, hu]⟩
    · exact ⟨other, by rw [hfind, if_neg hh, hother], hu⟩

/-- Two texts with one hash are not both in a table. -/
theorem Knows.eq_of_hash_eq {u v : String} (hu : t.Knows u) (hv : t.Knows v) (h : hash u = hash v) :
    u = v := by
  obtain ⟨name, hname, rfl⟩ := hu
  obtain ⟨other, hother, rfl⟩ := hv
  rw [h, hother] at hname
  rw [Option.some.inj hname]

end Interner
end ScriptFront
