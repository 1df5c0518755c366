import ScriptFront.Proofs.Comment.Scanner
import ScriptFront.Text.Class

/-! The blanks and the block comments at the start of a text. Erasing comments and reading a directive
agree on what comes first after them. -/
namespace ScriptFront.Text.Comment

/-- What follows the blanks and the block comments at the start of a text. A comment without an end is
not passed over. -/
def afterGap (s : List Char) : List Char :=
  match s with
  | [] => []
  | '/' :: '*' :: r =>
    match _h : afterEnd? r with
    | none => '/' :: '*' :: r
    | some rest => afterGap rest
  | c :: r => if isIndent c then afterGap r else c :: r
termination_by s.length
decreasing_by
  · have := length_of_afterEnd? _h; simp; omega
  · simp

theorem afterGap_of_not_prefix {s : List Char} (h : ¬['/', '*'] <+: s.dropWhile isIndent) :
    afterGap s = s.dropWhile isIndent := by
  fun_induction afterGap s with
  | case1 => rfl
  | case2 r hr => exact absurd ⟨r, rfl⟩ h
  | case3 r rest hr ih => exact absurd ⟨r, rfl⟩ h
  | case4 c r hb hc ih =>
    rw [List.dropWhile_cons_of_pos hc] at h ⊢
    exact ih h
  | case5 c r hb hc => rw [List.dropWhile_cons_of_neg hc]

theorem isIndent_ne {c : Char} (h : isIndent c = true) : c ≠ '"' ∧ c ≠ '/' := by
  constructor <;> rintro rfl <;> exact absurd h (by decide)

theorem afterGap_cons {c : Char} (h : isIndent c = true) (r : List Char) :
    afterGap (c :: r) = afterGap r := by
  rw [afterGap, if_pos h]
  exact fun _ hs _ => (isIndent_ne h).2 hs

/-- A character that begins neither a literal nor a comment stands for itself. -/
theorem erase_cons {c : Char} (hq : c ≠ '"') (hs : c ≠ '/') (r : List Char) :
    erase (c :: r) = (erase r).prepend [c] := by
  rw [erase]
  · exact hq
  · exact fun _ h _ => hs h
  · exact fun _ h _ => hs h

theorem statement_cons {c : Char} (hq : c ≠ '"') (hs : c ≠ '/') (r : List Char) :
    statement (c :: r) = (statement r).prepend [c] := by
  rw [statement]
  · exact hq
  · exact fun _ h _ => hs h
  · exact fun _ h _ => hs h

/-- Only a block comment changes what a text begins with. -/
theorem head?_erase {s : List Char} (h : ∀ r, s ≠ '/' :: '*' :: r) :
    (erase s).text.head? = s.head? := by
  fun_cases erase s with
  | case5 r hr => exact absurd rfl (h r)
  | case6 r rest hr => exact absurd rfl (h r)
  | _ => rfl

/-- A character that begins no comment comes first in the erased text exactly if it comes first behind
the gap. -/
theorem head?_dropWhile_erase {c : Char} (hs : c ≠ '/') (s : List Char) :
    ((erase s).text.dropWhile isIndent).head? = some c ↔ (afterGap s).head? = some c := by
  fun_induction afterGap s with
  | case1 => rw [erase]; rfl
  | case2 r hr =>
    rw [erase, hr]
    simp [Ne.symm hs]
  | case3 r rest hr ih =>
    rw [erase, hr]
    exact ih
  | case4 d r hb hd ih =>
    rw [erase_cons (isIndent_ne hd).1 (isIndent_ne hd).2, Stripped.text_prepend,
      List.singleton_append, List.dropWhile_cons_of_pos hd]
    exact ih
  | case5 d r hb hd =>
    have hhead : (erase (d :: r)).text.head? = some d :=
      head?_erase fun r' h => by cases h; exact hb r' rfl rfl
    obtain ⟨more, hmore⟩ := List.head?_eq_some_iff.mp hhead
    rw [hmore, List.dropWhile_cons_of_neg hd]
    rfl

/-- A directive has the word that stands at the start of its text. -/
theorem takeWhile_statement (s : List Char) :
    (statement s).text.takeWhile CharClass.isIdentifier = s.takeWhile CharClass.isIdentifier := by
  fun_induction statement s with
  | case7 c r hq hl hb ih =>
    rw [Stripped.text_prepend, List.singleton_append, List.takeWhile_cons, List.takeWhile_cons, ih]
  | _ => rfl

theorem dropWhile_statement {s : List Char} (hb : ∀ r, s ≠ '/' :: '*' :: r)
    (hi : s.head?.all (!isIndent ·) = true) :
    (statement s).text.dropWhile isIndent = (statement s).text := by
  fun_cases statement s with
  | case5 r hr => exact absurd rfl (hb r)
  | case6 r rest hr => exact absurd rfl (hb r)
  | case7 c r => exact List.dropWhile_cons_of_neg (by simpa using hi)
  | _ => rfl

theorem takeWhile_dropWhile_statement (s : List Char) :
    ((statement s).text.dropWhile isIndent).takeWhile CharClass.isIdentifier =
      (afterGap s).takeWhile CharClass.isIdentifier := by
  fun_induction afterGap s with
  | case1 => rw [statement]; rfl
  | case2 r hr =>
    rw [statement, hr]
    rfl
  | case3 r rest hr ih =>
    rw [statement, hr]
    exact ih
  | case4 c r hb hc ih =>
    rw [statement_cons (isIndent_ne hc).1 (isIndent_ne hc).2, Stripped.text_prepend,
      List.singleton_append, List.dropWhile_cons_of_pos hc]
    exact ih
  | case5 c r hb hc =>
    have hstart : ∀ r', c :: r ≠ '/' :: '*' :: r' := fun r' h => by cases h; exact hb r' rfl rfl
    rw [dropWhile_statement hstart (by simpa using hc), takeWhile_statement]

end ScriptFront.Text.Comment
