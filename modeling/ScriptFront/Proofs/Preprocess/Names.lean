import ScriptFront.Proofs.Preprocess.Findings
import ScriptFront.Proofs.Token.Refusal

/-! A pass sees of the table of names only what the table refuses. Passes over the same line with
tables that refuse the same texts of its expression do the same. -/
namespace ScriptFront

variable {hash : NameHash} {W : Set String} {r : Interner hash}

/-- The definitions are the same, and for the texts `W` both tables are those of `r`. -/
structure Symbols.Same (W : Set String) (r : Interner hash) (s t : Symbols hash) : Prop where
  definitions : s.definitions = t.definitions
  left : s.names.Agrees W r
  right : t.names.Agrees W r

namespace FilePass

/-- The expression that the pass evaluates at a directive. -/
def evaluates? (p : FilePass) (d : Directive) : Option (List Char) :=
  match d, p.depth.descend with
  | .if_ _, .error _ => none
  | d, _ => if p.isActive then d.expression? else none

/-- The expression that the pass evaluates at a line. -/
def evaluated? (p : FilePass) (line : Line) : Option (List Char) :=
  match p.openComment with
  | some _ => none
  | none => (Directive.start? line).bind fun text =>
      p.evaluates? (.ofStatement (Text.Comment.statement text).text)

variable {s t : Symbols hash}

theorem evaluate_same (hW : Set.InjOn hash W) (h : s.Same W r t) {text : List Char}
    (htext : ∀ u ∈ textsOf text, u ∈ W) (p : FilePass) (index : Nat) :
    ∃ v q s' t', p.evaluate s index text = (v, q, s') ∧ p.evaluate t index text = (v, q, t') ∧
      s'.Same W r t' := by
  have htokens := tokenize_same hW h.left h.right htext
  unfold evaluate
  simp only [htokens.tokens, htokens.errors, h.definitions]
  split
  · split
    · exact ⟨_, _, _, _, rfl, rfl, rfl, htokens.left, htokens.right⟩
    · exact ⟨_, _, _, _, rfl, rfl, rfl, htokens.left, htokens.right⟩
  · exact ⟨_, _, _, _, rfl, rfl, rfl, htokens.left, htokens.right⟩

theorem setValue_same (h : s.Same W r t) (p : FilePass) (index : Nat) (name : String)
    (value : Int64) : ∃ q s' t', p.setValue s index name value = (q, s') ∧
      p.setValue t index name value = (q, t') ∧ s'.Same W r t' := by
  unfold setValue
  rw [h.definitions]
  rcases t.definitions.set name value with ⟨_ | old, definitions⟩
  · exact ⟨_, _, _, rfl, rfl, rfl, h.left, h.right⟩
  · dsimp only
    split
    · exact ⟨_, _, _, rfl, rfl, rfl, h.left, h.right⟩
    · exact ⟨_, _, _, rfl, rfl, rfl, h.left, h.right⟩

theorem define_same (hW : Set.InjOn hash W) (h : s.Same W r t) {body : List Char}
    (hbody : ∀ text ∈ (Directive.define body).expression?, ∀ u ∈ textsOf text, u ∈ W)
    (p : FilePass) (index : Nat) :
    ∃ q s' t', p.define s index body = (q, s') ∧ p.define t index body = (q, t') ∧
      s'.Same W r t' := by
  unfold define
  rcases hdefinition : Directive.definition? body with _ | ⟨name, _ | ⟨c, text⟩⟩
  · exact ⟨_, _, _, rfl, rfl, h⟩
  · exact setValue_same h p index name 1
  · have htext : ∀ u ∈ textsOf (c :: text), u ∈ W :=
      hbody (c :: text) (by simp [Directive.expression?, hdefinition])
    obtain ⟨v, q, s', t', hs, ht, h'⟩ := evaluate_same hW h htext p index
    simp only [hs, ht]
    cases v with
    | none => exact ⟨q, s', t', rfl, rfl, h'⟩
    | some value => exact setValue_same h' q index name value

theorem openBlock_same (hW : Set.InjOn hash W) (h : s.Same W r t) (p : FilePass)
    {condition : List Char}
    (hcondition : ∀ text ∈ p.evaluates? (.if_ condition), ∀ u ∈ textsOf text, u ∈ W)
    (index : Nat) :
    ∃ q s' t', p.openBlock s index condition = (q, s') ∧ p.openBlock t index condition = (q, t') ∧
      s'.Same W r t' := by
  unfold openBlock
  unfold evaluates? at hcondition
  cases ha : p.isActive with
  | false => exact ⟨_, _, _, rfl, rfl, h⟩
  | true =>
    rcases hd : p.depth.descend with e | depth
    · exact ⟨_, _, _, rfl, rfl, h⟩
    · have htext : ∀ u ∈ textsOf condition, u ∈ W :=
        hcondition condition (by simp [hd, ha, Directive.expression?])
      obtain ⟨v, q, s', t', hs, ht, h'⟩ := evaluate_same hW h htext { p with depth } index
      simp only [hs, ht]
      exact ⟨_, _, _, rfl, rfl, h'⟩

theorem direct_same (hW : Set.InjOn hash W) (h : s.Same W r t) (p : FilePass) {d : Directive}
    (hd : ∀ text ∈ p.evaluates? d, ∀ u ∈ textsOf text, u ∈ W) (index : Nat) :
    ∃ stays q s' t', p.direct s index d = (stays, q, s') ∧ p.direct t index d = (stays, q, t') ∧
      s'.Same W r t' := by
  cases d with
  | if_ condition =>
    obtain ⟨q, s', t', hs, ht, h'⟩ := openBlock_same hW h p hd index
    exact ⟨false, q, s', t', by rw [direct, hs], by rw [direct, ht], h'⟩
  | define body =>
    unfold direct
    unfold evaluates? at hd
    cases ha : p.isActive with
    | false => exact ⟨_, _, _, _, rfl, rfl, h⟩
    | true =>
      simp only [ha, if_true] at hd
      obtain ⟨q, s', t', hs, ht, h'⟩ := define_same hW h hd p index
      exact ⟨false, q, s', t', congrArg (false, ·) hs, congrArg (false, ·) ht, h'⟩
  | else_ | endif | includeFile | unknown name => exact ⟨_, _, _, _, rfl, rfl, h⟩

theorem directive_same (hW : Set.InjOn hash W) (h : s.Same W r t) (p : FilePass) {text : List Char}
    (htext : ∀ expression ∈ p.evaluates? (.ofStatement (Text.Comment.statement text).text),
      ∀ u ∈ textsOf expression, u ∈ W) (index : Nat) :
    ∃ stays q s' t', p.directive s index text = (stays, q, s') ∧
      p.directive t index text = (stays, q, t') ∧ s'.Same W r t' := by
  unfold directive
  dsimp only
  split
  · -- the comment that the line leaves open does not matter to what it evaluates
    exact direct_same hW h { p with openComment := some index } htext index
  · exact direct_same hW h p htext index

/-- The line, the pass and the definitions after it are the same. -/
theorem processLine_same (hW : Set.InjOn hash W) (h : s.Same W r t) (p : FilePass) {line : Line}
    (hline : ∀ text ∈ p.evaluated? line, ∀ u ∈ textsOf text, u ∈ W) (index : Nat) :
    ∃ out q s' t', p.processLine s index line = (out, q, s') ∧
      p.processLine t index line = (out, q, t') ∧ s'.Same W r t' := by
  unfold processLine
  unfold evaluated? at hline
  rcases hopen : p.openComment with _ | opened
  · rw [hopen] at hline
    rcases hstart : Directive.start? line with _ | text
    · exact ⟨_, _, _, _, rfl, rfl, h⟩
    · rw [hstart] at hline
      obtain ⟨stays, q, s', t', hs, ht, h'⟩ := directive_same hW h p hline index
      simp only [hs, ht]
      exact ⟨_, _, _, _, rfl, rfl, h'⟩
  · cases Text.Comment.afterEnd? line with
    | none => exact ⟨_, _, _, _, rfl, rfl, h⟩
    | some rest => exact ⟨_, _, _, _, rfl, rfl, h⟩

end FilePass
end ScriptFront
