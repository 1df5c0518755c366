import ScriptFront.Proofs.Condition.Climbing

/-! How deep conditions may be nested. An operand takes a level of its own, next to the parentheses
and prefix operators around it, so only 127 of these fit into the 128 levels. Operators between
operands take none. -/
namespace ScriptFront.Condition

variable {names : String → Int64} {room max : Nat} {rest : List Token} {err : ConditionError}

/-- Reading a tree ends in a fault, whatever follows the tree. -/
structure Fails (names : String → Int64) (room : Nat) (e : Tree) (err : ConditionError) : Prop where
  operand : e.level = 0 → ∀ rest, plain (operand names room (e.tokens ++ rest)) = .error err
  expression : ∀ {max rest}, e.level ≤ max → NextFrom e.level rest →
    plain (expression names room max (e.tokens ++ rest)) = .error err

theorem fails_of_operand {e : Tree}
    (h : ∀ rest, plain (operand names room (e.tokens ++ rest)) = .error err) :
    Fails names room e err where
  operand _ := h
  expression _ _ := by
    rw [plain_expression, h]
    rfl

/-- Without room not even an operand is read. -/
theorem fails_zero (e : Tree) : Fails names 0 e (.tooDeep ⟨maxDepth⟩) := by
  apply fails_of_operand
  intro rest
  rw [operand]
  rfl

theorem Fails.parens {e : Tree} (h : Fails names room e err) (hg : e.Grouped) :
    Fails names (room + 1) (.parens e) err := by
  apply fails_of_operand
  intro rest
  rw [Tree.tokens, List.cons_append, List.append_assoc, List.singleton_append,
    plain_operand_parens, h.expression (level_le_lowestPriority hg) (nextFrom_parenRight _ _)]
  rfl

theorem Fails.unary {e : Tree} (h : Fails names room e err) (hl : e.level = 0) {op : Operator}
    (hop : op ∈ prefixOperators) : Fails names (room + 1) (.unary op e) err := by
  apply fails_of_operand
  intro rest
  obtain ⟨f, hf, -⟩ := unary?_of_mem hop
  rw [Tree.tokens, List.cons_append, plain_operand_unary hf, h.operand hl]
  rfl

section Binary

variable {op : Operator} {l r : Tree}

/-- A binary expression is read as an expression only. -/
theorem fails_binary
    (h : ∀ {max rest}, op.priority ≤ max → NextFrom op.priority rest →
      plain (expression names room max ((Tree.binary op l r).tokens ++ rest)) = .error err) :
    Fails names room (.binary op l r) err where
  operand hl := absurd hl (Nat.ne_of_gt (priority_pos op))
  expression := h

theorem Fails.binary_left (hl : Fails names room l err) (hle : l.level ≤ op.priority) :
    Fails names room (.binary op l r) err := by
  apply fails_binary
  intro max rest hmax _
  rw [Tree.tokens, List.append_assoc, List.cons_append,
    hl.expression (Nat.le_trans hle hmax) (nextFrom_operator hle _)]

theorem Fails.binary_right {left : Int64} (hl : IsRead names room l left)
    (hr : Fails names room r err) (hop : op ∈ binaryOperators) (hle : l.level ≤ op.priority)
    (hlt : r.level < op.priority) : Fails names room (.binary op l r) err := by
  apply fails_binary
  intro max rest hmax hnext
  obtain ⟨f, hf, -⟩ := binary?_of_mem hop
  rw [hl.expression_binary hf hle hmax,
    hr.expression (Nat.le_sub_one_of_lt hlt) (hnext.mono (Nat.le_of_lt hlt))]
  rfl

theorem fails_divisionByZero {left right : Int64} (hl : IsRead names room l left)
    (hr : IsRead names room r right) (hop : op ∈ binaryOperators) (hle : l.level ≤ op.priority)
    (hlt : r.level < op.priority)
    (hz : (meaning? op left.toInt right.toInt).map Int64.ofInt = none) :
    Fails names room (.binary op l r) .divisionByZero := by
  apply fails_binary
  intro max rest hmax hnext
  obtain ⟨f, hf, hval⟩ := binary?_of_mem hop
  rw [hl.expression_binary hf hle hmax, hr.expression_right hlt hnext]
  simp only [Bind.bind, Except.bind, ← hval, hz]

end Binary

/-- The ways in which reading a tree may end. -/
inductive Ends (names : String → Int64) (room : Nat) (e : Tree) : Prop
  | value {v : Int64} (has : e.value? names = some v) (fits : e.depth < room)
  | tooDeep (deep : room ≤ e.depth) (fails : Fails names room e (.tooDeep ⟨maxDepth⟩))
  | byZero (noValue : e.value? names = none) (fails : Fails names room e .divisionByZero)

theorem Ends.zero (e : Tree) : Ends names 0 e := .tooDeep (Nat.zero_le _) (fails_zero e)

theorem Ends.parens {e : Tree} (h : Ends names room e) (hg : e.Grouped) :
    Ends names (room + 1) (.parens e) := by
  cases h with
  | value has fits => exact .value has (Nat.succ_lt_succ fits)
  | tooDeep deep fails => exact .tooDeep (Nat.succ_le_succ deep) (fails.parens hg)
  | byZero noValue fails => exact .byZero noValue (fails.parens hg)

theorem Ends.unary {e : Tree} (h : Ends names room e) (hl : e.level = 0) {op : Operator}
    (hop : op ∈ prefixOperators) : Ends names (room + 1) (.unary op e) := by
  cases h with
  | @value v has fits =>
    have hvalue : (Tree.unary op e).value? names =
        some (Int64.ofInt (prefixMeaning op v.toInt)) := by
      rw [Tree.value?, has, Option.map_some]
    exact .value hvalue (Nat.succ_lt_succ fits)
  | tooDeep deep fails => exact .tooDeep (Nat.succ_le_succ deep) (fails.unary hl hop)
  | byZero noValue fails =>
    have hvalue : (Tree.unary op e).value? names = none := by
      rw [Tree.value?, noValue, Option.map_none]
    exact .byZero hvalue (fails.unary hl hop)

theorem Ends.binary {op : Operator} {l r : Tree} (hg : (Tree.binary op l r).Grouped)
    (hl : Ends names room l) (hr : Ends names room r) : Ends names room (.binary op l r) := by
  obtain ⟨hop, hle, hlt, hgl, hgr⟩ := hg
  cases hl with
  | tooDeep deep fails =>
    exact .tooDeep (Nat.le_trans deep (Nat.le_max_left ..)) (fails.binary_left hle)
  | byZero noValue fails =>
    refine .byZero ?_ (fails.binary_left hle)
    rw [Tree.value?, noValue]
    rfl
  | @value left has fits =>
    have hleft := isRead hgl fits has
    cases hr with
    | tooDeep deep fails =>
      exact .tooDeep (Nat.le_trans deep (Nat.le_max_right ..))
        (fails.binary_right hleft hop hle hlt)
    | byZero noValue fails =>
      refine .byZero ?_ (fails.binary_right hleft hop hle hlt)
      rw [Tree.value?, has, noValue]
      rfl
    | @value right has' fits' =>
      have hvalue : (Tree.binary op l r).value? names =
          (meaning? op left.toInt right.toInt).map Int64.ofInt := by
        rw [Tree.value?, has, has']
        rfl
      cases hw : (meaning? op left.toInt right.toInt).map Int64.ofInt with
      | none =>
        have hright := isRead hgr fits' has'
        exact .byZero (hvalue.trans hw) (fails_divisionByZero hleft hright hop hle hlt hw)
      | some w => exact .value (hvalue.trans hw) (Nat.max_lt.mpr ⟨fits, fits'⟩)

/-- By the structure of the tree: parentheses and a prefix operator take one level of the room each,
and a binary operator takes none. -/
theorem ends (names : String → Int64) {e : Tree} (hg : e.Grouped) (room : Nat) :
    Ends names room e := by
  induction e generalizing room with
  | name text =>
    cases room with
    | zero => exact .zero _
    | succ room => exact .value rfl (Nat.succ_pos room)
  | integer n =>
    cases room with
    | zero => exact .zero _
    | succ room => exact .value rfl (Nat.succ_pos room)
  | parens e ih =>
    cases room with
    | zero => exact .zero _
    | succ room => exact (ih hg room).parens hg
  | unary op e ih =>
    obtain ⟨hop, hl, hg⟩ := hg
    cases room with
    | zero => exact .zero _
    | succ room => exact (ih hg room).unary hl hop
  | binary op l r ihl ihr =>
    have ⟨_, _, _, hgl, hgr⟩ := hg
    exact .binary hg (ihl hgl room) (ihr hgr room)

theorem tokens_ne_nil (e : Tree) : e.tokens ≠ [] := by
  cases e <;> simp [Tree.tokens]

theorem evaluate_of_fails {e : Tree} (hg : e.Grouped) (h : Fails names maxDepth e err) :
    evaluate names e.tokens = .error err := by
  have hread : plain (expression names maxDepth lowestPriority (e.tokens ++ [])) = .error err :=
    h.expression (level_le_lowestPriority hg) fun _ _ hh => by cases hh
  rw [List.append_nil] at hread
  have hempty : e.tokens.isEmpty = false := by simpa using tokens_ne_nil e
  rw [evaluate, hempty]
  cases hr : expression names maxDepth lowestPriority e.tokens with
  | error e' =>
    rw [hr] at hread
    cases hread
    rfl
  | ok r =>
    rw [hr] at hread
    cases hread

/-- A condition of the grammar that divides by no zero has its value if all its operands lie under
fewer than 128 parentheses and prefix operators, and is too deep if one lies under 128 or more. A
quotient by zero can be met only where the condition has no value. -/
theorem evaluate_of_grouped (names : String → Int64) {e : Tree} (hg : e.Grouped) :
    (e.value? names ≠ none → evaluate names e.tokens ≠ .error .divisionByZero) ∧
      (evaluate names e.tokens ≠ .error .divisionByZero →
        ((∃ v, e.value? names = some v ∧ evaluate names e.tokens = .ok v) ↔ e.depth < 128) ∧
        (evaluate names e.tokens = .error (.tooDeep ⟨128⟩) ↔ 128 ≤ e.depth)) := by
  cases ends names hg maxDepth with
  | @value v has fits =>
    have hrun : evaluate names e.tokens = .ok v := evaluate_eq_ok_of_tree hg fits has
    rw [hrun]
    refine ⟨fun _ => by simp, fun _ => ⟨?_, ?_⟩⟩
    · exact iff_of_true ⟨v, has, rfl⟩ fits
    · exact iff_of_false (by simp) (Nat.not_le.mpr fits)
  | tooDeep deep fails =>
    rw [evaluate_of_fails hg fails]
    refine ⟨fun _ => by simp, fun _ => ⟨?_, ?_⟩⟩
    · exact iff_of_false (by simp) (Nat.not_lt.mpr deep)
    · exact iff_of_true rfl deep
  | byZero noValue fails =>
    have hrun := evaluate_of_fails hg fails
    exact ⟨fun h => absurd noValue h, fun h => absurd hrun h⟩

/-- A sum whose right operand lies in `n` pairs of parentheses. -/
def nestedSum (n : Nat) : Tree := .binary .add (.integer 2) (Nat.repeat Tree.parens n (.integer 1))

theorem evaluate_of_grouped_nestedSum :
    (nestedSum 127).Grouped ∧ (nestedSum 128).Grouped ∧
      evaluate (fun _ => 0) (nestedSum 127).tokens = .ok 3 ∧
      evaluate (fun _ => 0) (nestedSum 128).tokens = .error (.tooDeep ⟨128⟩) := by
  have hg : (nestedSum 127).Grouped := ⟨by decide, by decide, by decide, trivial, trivial⟩
  have hg' : (nestedSum 128).Grouped := ⟨by decide, by decide, by decide, trivial, trivial⟩
  have hvalue : (nestedSum 127).value? (fun _ => 0) = some 3 := by decide +kernel
  have hvalue' : (nestedSum 128).value? (fun _ => 0) = some 3 := by decide +kernel
  obtain ⟨hzero, hrun⟩ := evaluate_of_grouped (fun _ => 0) hg
  obtain ⟨hzero', hrun'⟩ := evaluate_of_grouped (fun _ => 0) hg'
  refine ⟨hg, hg', ?_, ?_⟩
  · obtain ⟨v, hv, h⟩ := (hrun (hzero (by simp [hvalue]))).1.mpr (by decide +kernel)
    cases hvalue.symm.trans hv
    exact h
  · exact (hrun' (hzero' (by simp [hvalue']))).2.mpr (by decide +kernel)

/-- With 128 pairs of parentheses around its only operand a condition is too deep. -/
theorem evaluate_at_limit :
    let e : Tree := Nat.repeat Tree.parens 128 (.integer 1)
    e.Grouped ∧ e.depth = 128 ∧ e.value? (fun _ => 0) = some 1 ∧
      evaluate (fun _ => 0) e.tokens = .error (.tooDeep ⟨128⟩) := by
  intro e
  have hg : e.Grouped := trivial
  have hdepth : e.depth = 128 := by decide +kernel
  have hvalue : e.value? (fun _ => 0) = some 1 := by decide +kernel
  refine ⟨hg, hdepth, hvalue, ?_⟩
  cases ends (fun _ => 0) hg maxDepth with
  | value _ fits => exact absurd fits (by rw [hdepth]; decide)
  | tooDeep _ fails => exact evaluate_of_fails hg fails
  | byZero noValue _ => cases hvalue.symm.trans noValue

end ScriptFront.Condition
