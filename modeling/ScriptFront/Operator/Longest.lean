import ScriptFront.Operator.Trie
import ScriptFront.Text.Class

/-! The longest operator at the start of a text. -/
namespace ScriptFront

namespace OperatorTrie

variable {t : OperatorTrie}

theorem lt_len_of_lookupFrom {q : Option Nat} {len : Nat} {best : Option Operator.Found}
    {s : List UInt8} {found : Operator.Found} (h : t.lookupFrom q len best s = some found) :
    best = some found ∨ len < found.len := by
  induction s generalizing q len best with
  | nil => exact .inl h
  | cons b s ih =>
    rw [lookupFrom] at h
    split at h
    · split at h
      · next node _ =>
        rcases ih h with hbest | hlen
        · rcases hnode : t.operator? node with _ | k <;> rw [hnode] at hbest
          · exact .inl hbest
          · cases hbest
            exact .inr (Nat.lt_succ_self len)
        · exact .inr (Nat.lt_of_succ_lt hlen)
      · exact .inl h
    · exact .inl h

theorem len_pos_of_lookup {s : List UInt8} {found : Operator.Found} (h : t.lookup s = some found) :
    0 < found.len :=
  (lt_len_of_lookupFrom h).resolve_left nofun

end OperatorTrie

namespace Operator

/-- The longest operator that `s` begins with, and the rest: `>>=` rather than `>>` or `>`. It is
looked for in the run of operators that `s` begins with, whose characters are one byte each. -/
def longest? (s : List Char) : Option (Operator × List Char) := do
  let found ← find? (bytes (s.takeWhile CharClass.isOperator))
  let op ← all[found.index]?
  return (op, s.drop found.len)

theorem longest?_eq_some {s rest : List Char} {op : Operator} (h : longest? s = some (op, rest)) :
    ∃ found, find? (bytes (s.takeWhile CharClass.isOperator)) = some found ∧
      all[found.index]? = some op ∧ s.drop found.len = rest := by
  obtain ⟨found, hfound, h⟩ := Option.bind_eq_some_iff.mp h
  obtain ⟨op', hop, h⟩ := Option.bind_eq_some_iff.mp h
  cases h
  exact ⟨found, hfound, hop, rfl⟩

theorem suffix_of_longest? {s rest : List Char} {op : Operator} (h : longest? s = some (op, rest)) :
    rest <:+ s := by
  obtain ⟨found, -, -, rfl⟩ := longest?_eq_some h
  exact List.drop_suffix _ _

/-- An operator takes at least one character. -/
theorem length_lt_of_longest? {c : Char} {s rest : List Char} {op : Operator}
    (h : longest? (c :: s) = some (op, rest)) : rest.length < (c :: s).length := by
  obtain ⟨found, hfound, -, rfl⟩ := longest?_eq_some h
  have hpos := OperatorTrie.len_pos_of_lookup hfound
  rw [List.length_drop, List.length_cons]
  omega

end Operator
end ScriptFront
