import ScriptFront.Proofs.Token.ByteScan

/-! Splitting a line is safe. The scan of its bytes comes to an end, is never refused a text, and finds
what the scan of its characters finds. Every fault is reported at a character of its own. -/
namespace ScriptFront

open Text (IsBoundary byteSize slice?)

namespace Lexeme

variable {hash : NameHash}

/-- A part begins at a character of the text. -/
theorem exists_of_mem_lexemes {offset : Nat} {s : List Char} {p : Nat × Lexeme}
    (hp : p ∈ lexemes offset s) :
    ∃ before t, s = before ++ t ∧ t ≠ [] ∧ p.1 = offset + byteSize before := by
  -- the parts behind the first one begin in the rest of the text
  have hlater {offset : Nat} {c : Char} {s : List Char}
      (h : ∃ before t, (next c s).rest = before ++ t ∧ t ≠ [] ∧
        p.1 = offset + byteSize (next c s).raw + byteSize before) :
      ∃ before t, c :: s = before ++ t ∧ t ≠ [] ∧ p.1 = offset + byteSize before := by
    obtain ⟨before, t, hrest, hne, hp⟩ := h
    refine ⟨(next c s).raw ++ before, t, ?_, hne, ?_⟩
    · rw [List.append_assoc, ← hrest, raw_append_rest_next]
    · rw [hp, Text.byteSize_append, Nat.add_assoc]
  fun_induction lexemes offset s with
  | case1 => cases hp
  | case2 offset c s step rest x hx ih =>
    rcases List.mem_cons.mp hp with rfl | hp
    · exact ⟨[], c :: s, rfl, List.cons_ne_nil c s, rfl⟩
    · exact hlater (ih hp)
  | case3 offset c s step rest hx ih => exact hlater (ih hp)

theorem pairwise_offsets_lexemes (offset : Nat) (s : List Char) :
    (lexemes offset s).Pairwise (·.1 < ·.1) := by
  fun_induction lexemes offset s with
  | case1 => exact .nil
  | case2 offset c s step rest x hx ih =>
    refine .cons (fun p hp => ?_) ih
    obtain ⟨before, t, -, -, hp⟩ := exists_of_mem_lexemes hp
    have hpos : 0 < byteSize step.raw := Text.byteSize_pos (raw_next_ne_nil c s)
    rw [hp]
    omega
  | case3 offset c s step rest hx ih => exact ih

theorem offsets_resolve_sublist (names : Interner hash) (xs : List (Nat × Lexeme)) :
    ((resolve names xs).errors.map (·.offset)).Sublist (xs.map (·.1)) := by
  induction xs generalizing names with
  | nil => exact .slnil
  | cons x xs ih =>
    obtain ⟨offset, x⟩ := x
    cases x with
    | token t => exact (ih names).cons offset
    | error cause => exact (ih names).cons_cons offset
    | stringLiteral text | label text | identifier text =>
      rw [resolve, make, enter]
      rcases names.intern text with _ | ⟨_, names'⟩
      · exact (ih names).cons_cons offset
      · exact (ih names').cons offset

end Lexeme

variable {hash : NameHash} (names : Interner hash) (line : Line)

theorem pairwise_offsets_tokenize :
    ((tokenize names line).errors.map (·.offset)).Pairwise (· < ·) :=
  .sublist (Lexeme.offsets_resolve_sublist names _)
    (List.pairwise_map.mpr (Lexeme.pairwise_offsets_lexemes 0 line))

theorem offset_of_mem_errors {e : LexError} (he : e ∈ (tokenize names line).errors) :
    e.offset < byteSize line ∧ IsBoundary line e.offset := by
  have hoffset := (Lexeme.offsets_resolve_sublist names _).subset (List.mem_map_of_mem he)
  obtain ⟨p, hp, hpe⟩ := List.mem_map.mp hoffset
  obtain ⟨before, t, hline, hne, hbefore⟩ := Lexeme.exists_of_mem_lexemes hp
  have hpos := Text.byteSize_pos hne
  rw [← hpe, hbefore, Nat.zero_add, hline]
  refine ⟨?_, Text.isBoundary_append before t⟩
  rw [Text.byteSize_append]
  omega

/-- The tokens and the faults of a line by the scan of its bytes, unless it is refused a text. -/
def tokenizeBytes? : Option (LexResult hash) :=
  (ByteScan.steps? line 0).map fun steps => Lexeme.resolve names (steps.flatMap (·.2.parts))

/-- A line is split to its end, whatever characters are in it and whatever names are known: no step
takes a text that would cut a character or that ends behind the line, and every step goes on. Its
faults are reported in order, each at a character of its own. -/
theorem tokenizeBytes?_eq :
    tokenizeBytes? names line = some (tokenize names line) ∧
      (∀ i j, (slice? line i j).isSome = true ↔
        i ≤ j ∧ j ≤ byteSize line ∧ IsBoundary line i ∧ IsBoundary line j) ∧
      (∃ steps, ByteScan.steps? line 0 = some steps ∧
        steps.flatMap (·.2.parts) = lexemes 0 line ∧
        ∀ x ∈ steps, ByteScan.Advances line x) ∧
      ((tokenize names line).errors.map (·.offset)).Pairwise (· < ·) ∧
      ∀ e ∈ (tokenize names line).errors, e.offset < byteSize line ∧ IsBoundary line e.offset := by
  obtain ⟨steps, hsteps, hparts, hall⟩ := (ByteScan.at_byteSize [] line).exists_steps?
  refine ⟨?_, fun i j => ?_, ⟨steps, hsteps, hparts, hall⟩, pairwise_offsets_tokenize names line,
    fun e he => offset_of_mem_errors names line he⟩
  · have hscan : ByteScan.steps? line 0 = some steps := hsteps
    rw [tokenizeBytes?, hscan, Option.map_some, hparts]
    rfl
  · rw [Text.isSome_slice?_iff]
    exact ⟨fun ⟨hle, hi, hj⟩ => ⟨hle, hj.le, hi, hj⟩, fun ⟨hle, _, hi, hj⟩ => ⟨hle, hi, hj⟩⟩

/-- The bytes of the characters that no part begins with are passed one by one, and none of them is
the place of a fault. -/
theorem tokenizeBytes?_eq_umlauts :
    let names : Interner .standard := .new
    let line := "é@ß 1xé\"ü\" \"ö".toList
    let r := tokenize names line
    tokenizeBytes? names line = some r ∧
      r.tokens = [.stringLiteral "ü"] ∧
      r.errors = [⟨.invalidLabel, 2⟩, ⟨.invalidNumber "1x", 6⟩, ⟨.unterminatedString, 15⟩] ∧
      (∀ e ∈ r.errors, e.offset < byteSize line ∧ IsBoundary line e.offset) ∧
      ¬IsBoundary line 1 := by
  intro names line r
  obtain ⟨hbytes, hslice, -, -, herrors⟩ := tokenizeBytes?_eq names line
  refine ⟨hbytes, by decide +kernel, by decide +kernel, herrors, fun h => ?_⟩
  have hsome := (hslice 0 1).mpr ⟨Nat.zero_le 1, h.le, ⟨[], List.nil_prefix, rfl⟩, h⟩
  exact absurd hsome (by decide +kernel)

end ScriptFront
