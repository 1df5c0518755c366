import ScriptFront.Definitions
import ScriptFront.Proofs.Condition.Arithmetic

/-! The evaluator reads exactly the grammar of conditions. It climbs up the priorities: what is
joined up to some priority ends where an operator of a higher one comes next. -/
namespace ScriptFront.Condition

/-- What is read, without the proof that less is left. -/
def plain {p : List Token → Prop} (r : Except ConditionError (Int64 × { rest // p rest })) :
    Except ConditionError (Int64 × List Token) :=
  r.map fun (v, rest) => (v, rest.1)

theorem of_plain {p : List Token → Prop} {r : Except ConditionError (Int64 × { rest // p rest })}
    {v : Int64} {rest : List Token} (h : plain r = .ok (v, rest)) : p rest := by
  cases r with
  | error e => cases h
  | ok a =>
    obtain ⟨v, rest, hp⟩ := a
    cases h
    exact hp

/-- The next token is no binary operator with a priority below `k`. -/
def NextFrom (k : Nat) (ts : List Token) : Prop :=
  ∀ op ∈ binaryOperators, ts.head? = some (.operator op) → k ≤ op.priority

variable {names : String → Int64} {room max : Nat} {ts rest : List Token} {v : Int64}

theorem priority_pos (op : Operator) : 0 < op.priority := by
  cases op <;> decide

theorem nextFrom_cases (max : Nat) (ts : List Token) : NextFrom (max + 1) ts ∨
    ∃ op ts', ts = .operator op :: ts' ∧ op ∈ binaryOperators ∧ op.priority ≤ max := by
  by_cases h : ∃ op ∈ binaryOperators, ts.head? = some (.operator op) ∧ op.priority ≤ max
  · obtain ⟨op, hop, hhead, hle⟩ := h
    obtain ⟨ts', rfl⟩ := List.head?_eq_some_iff.mp hhead
    exact Or.inr ⟨op, ts', rfl, hop, hle⟩
  · exact Or.inl fun op hop hhead => Nat.lt_of_not_le fun hle => h ⟨op, hop, hhead, hle⟩

theorem NextFrom.mono {j k : Nat} (h : NextFrom k ts) (hle : j ≤ k) : NextFrom j ts :=
  fun op hop hhead => Nat.le_trans hle (h op hop hhead)

theorem nextFrom_operator {k : Nat} {op : Operator} (hle : k ≤ op.priority) (ts : List Token) :
    NextFrom k (.operator op :: ts) := by
  intro op' _ hhead
  cases hhead
  exact hle

theorem plain_operand_parens : plain (operand names (room + 1) (.operator .parenLeft :: ts)) = (do
    let (v, rest) ← plain (expression names room lowestPriority ts)
    match rest with
    | .operator .parenRight :: rest => .ok (v, rest)
    | t :: _ => .error (.unexpectedToken t.display)
    | [] => .error .unclosedParenthesis) := by
  rw [operand]
  cases expression names room lowestPriority ts with
  | error e => rfl
  | ok r =>
    obtain ⟨v, rest, h⟩ := r
    rcases rest with - | ⟨t, rest⟩
    · rfl
    · cases t with
      | operator op => cases op <;> rfl
      | _ => rfl

theorem plain_operand_unary {op : Operator} {f : Int64 → Int64} (hf : unary? op = some f) :
    plain (operand names (room + 1) (.operator op :: ts)) = (do
      let (v, rest) ← plain (operand names room ts)
      .ok (f v, rest)) := by
  have hop : op ≠ .parenLeft := by
    rintro rfl
    cases hf
  rw [operand, hf]
  · cases operand names room ts <;> rfl
  · exact hop

theorem plain_expression : plain (expression names room max ts) = (do
    let (v, rest) ← plain (operand names room ts)
    plain (joined names room max v rest)) := by
  rw [expression]
  cases operand names room ts with
  | error e => rfl
  | ok r =>
    obtain ⟨v, rest, h⟩ := r
    simp only [Bind.bind, Except.bind, plain, Except.map]
    cases joined names room max v rest <;> rfl

theorem plain_joined_stop (h : NextFrom (max + 1) ts) :
    plain (joined names room max v ts) = .ok (v, ts) := by
  unfold joined
  split
  · next op ts =>
    by_cases hop : op ∈ binaryOperators
    · obtain ⟨f, hf, -⟩ := binary?_of_mem hop
      have hlt : max < op.priority := h op hop rfl
      simp only [hf, if_pos hlt]
      rfl
    · simp only [binary?_of_notMem hop]
      rfl
  · rfl

theorem plain_joined_go {op : Operator} {f : Int64 → Int64 → Option Int64}
    (hf : binary? op = some f) (hle : op.priority ≤ max) :
    plain (joined names room max v (.operator op :: ts)) = (do
      let (right, rest) ← plain (expression names room (op.priority - 1) ts)
      match f v right with
      | none => .error .divisionByZero
      | some w => plain (joined names room max w rest)) := by
  rw [joined, hf]
  simp only [if_neg (Nat.not_lt.mpr hle)]
  cases expression names room (op.priority - 1) ts with
  | error e => rfl
  | ok r =>
    obtain ⟨right, rest, h⟩ := r
    simp only [Bind.bind, Except.bind, plain, Except.map]
    cases f v right with
    | none => rfl
    | some w =>
      simp only
      cases joined names room max w rest <;> rfl

theorem exists_of_bind {ε β γ : Type} {x : Except ε β} {f : β → Except ε γ} {c : γ}
    (h : x >>= f = .ok c) : ∃ b, x = .ok b ∧ f b = .ok c := by
  cases x with
  | error e => cases h
  | ok b => exact ⟨b, rfl, h⟩

/-- What can begin an operand, and what is read after it. -/
theorem operand_cases (h : plain (operand names room ts) = .ok (v, rest)) :
    ∃ room', room = room' + 1 ∧
      ((∃ name, ts = .identifier name :: rest ∧ v = names name) ∨
      (∃ n, ts = .constant (.integer n) :: rest ∧ v = n.toInt64) ∨
      (∃ ts', ts = .operator .parenLeft :: ts' ∧
        plain (expression names room' lowestPriority ts') =
          .ok (v, .operator .parenRight :: rest)) ∨
      ∃ op f a ts', ts = .operator op :: ts' ∧ unary? op = some f ∧ v = f a ∧
        plain (operand names room' ts') = .ok (a, rest)) := by
  cases room with
  | zero =>
    rw [operand] at h
    cases h
  | succ room =>
    refine ⟨room, rfl, ?_⟩
    rcases ts with - | ⟨t, ts⟩
    · rw [operand] at h
      cases h
    cases t with
    | identifier name =>
      rw [operand] at h
      cases h
      exact Or.inl ⟨name, rfl, rfl⟩
    | constant c =>
      cases c with
      | integer n =>
        rw [operand] at h
        cases h
        exact Or.inr (Or.inl ⟨n, rfl, rfl⟩)
      | float | double =>
        rw [operand] at h
        · cases h
        all_goals simp
    | operator op =>
      refine Or.inr (Or.inr ?_)
      by_cases hop : op = .parenLeft
      · subst hop
        rw [plain_operand_parens] at h
        obtain ⟨⟨w, rest'⟩, he, h⟩ := exists_of_bind h
        refine Or.inl ⟨ts, rfl, ?_⟩
        rw [he]
        simp only at h
        split at h <;> cases h
        rfl
      · cases hf : unary? op with
        | none =>
          rw [operand, hf] at h
          · cases h
          · exact hop
        | some f =>
          rw [plain_operand_unary hf] at h
          obtain ⟨⟨a, rest'⟩, ho, h⟩ := exists_of_bind h
          cases h
          exact Or.inr ⟨op, f, a, ts, rfl, hf, rfl, ho⟩
    | keyword | typeName | label | pragma | stringLiteral =>
      rw [operand] at h
      · cases h
      all_goals simp

/-- The tree `e` is read from `ts`, and `rest` is left. -/
structure Reads (names : String → Int64) (room max : Nat) (ts rest : List Token) (v : Int64)
    (e : Tree) : Prop where
  grouped : e.Grouped
  level : e.level ≤ max
  depth : e.depth < room
  tokens : ts = e.tokens ++ rest
  value : e.value? names = some v

theorem Reads.parens {e : Tree}
    (r : Reads names room lowestPriority ts (.operator .parenRight :: rest) v e) :
    Reads names (room + 1) 0 (.operator .parenLeft :: ts) rest v (.parens e) where
  grouped := r.grouped
  level := Nat.le_refl 0
  depth := Nat.succ_lt_succ r.depth
  tokens := by simp [r.tokens, Tree.tokens]
  value := r.value

theorem Reads.unary {e : Tree} (r : Reads names room 0 ts rest v e) {op : Operator}
    (hop : op ∈ prefixOperators) :
    Reads names (room + 1) 0 (.operator op :: ts) rest (Int64.ofInt (prefixMeaning op v.toInt))
      (.unary op e) where
  grouped := ⟨hop, Nat.le_zero.mp r.level, r.grouped⟩
  level := Nat.le_refl 0
  depth := Nat.succ_lt_succ r.depth
  tokens := by rw [r.tokens, Tree.tokens, List.cons_append]
  value := by rw [Tree.value?, r.value, Option.map_some]

/-- Two trees are joined by an operator that binds at most as tightly as the left one, and less
tightly than the right one. -/
theorem Reads.binary {op : Operator} {l e : Tree} {left right w : Int64} {ts' : List Token}
    (rl : Reads names room max ts (.operator op :: ts') left l)
    (re : Reads names room (op.priority - 1) ts' rest right e) (hop : op ∈ binaryOperators)
    (hl : l.level ≤ op.priority) (hmax : op.priority ≤ max)
    (hw : (meaning? op left.toInt right.toInt).map Int64.ofInt = some w) :
    Reads names room max ts rest w (.binary op l e) where
  grouped := by
    have hpos := priority_pos op
    have he := re.level
    exact ⟨hop, hl, by omega, rl.grouped, re.grouped⟩
  level := hmax
  depth := Nat.max_lt.mpr ⟨rl.depth, re.depth⟩
  tokens := by rw [rl.tokens, re.tokens, Tree.tokens, List.append_assoc, List.cons_append]
  value := by
    rw [Tree.value?, rl.value, re.value]
    exact hw

/-! What is read is a tree of the grammar, by the recursion of the reader. The tree of what was read
so far can be a left operand as long as nothing that binds more tightly than it comes next. -/

mutual

theorem operand_sound (names : String → Int64) (room : Nat) (ts : List Token) {v : Int64}
    {rest : List Token} (h : plain (operand names room ts) = .ok (v, rest)) :
    ∃ e, Reads names room 0 ts rest v e := by
  obtain ⟨room, rfl, ⟨name, rfl, rfl⟩ | ⟨n, rfl, rfl⟩ | ⟨ts', rfl, he⟩ |
    ⟨op, f, a, ts', rfl, hf, rfl, ho⟩⟩ := operand_cases h
  · exact ⟨.name name, trivial, Nat.le_refl 0, Nat.succ_pos room, rfl, rfl⟩
  · have hvalue : (Tree.integer n).value? names = some n.toInt64 := congrArg some (ofInt_toNat n)
    exact ⟨.integer n, trivial, Nat.le_refl 0, Nat.succ_pos room, rfl, hvalue⟩
  · obtain ⟨e, r, -⟩ := expression_sound names room lowestPriority ts' he
    exact ⟨_, r.parens⟩
  · obtain ⟨e, r⟩ := operand_sound names room ts' ho
    by_cases hop : op ∈ prefixOperators
    · obtain ⟨g, hg, hval⟩ := unary?_of_mem hop
      obtain rfl := Option.some.inj (hf.symm.trans hg)
      rw [← hval]
      exact ⟨_, r.unary hop⟩
    · rw [unary?_of_notMem hop] at hf
      cases hf
termination_by (ts.length, 0)

theorem expression_sound (names : String → Int64) (room max : Nat) (ts : List Token) {v : Int64}
    {rest : List Token} (h : plain (expression names room max ts) = .ok (v, rest)) :
    ∃ e, Reads names room max ts rest v e ∧ NextFrom (max + 1) rest := by
  rw [plain_expression] at h
  obtain ⟨⟨left, ts'⟩, ho, hj⟩ := exists_of_bind h
  obtain ⟨l, r⟩ := operand_sound names room ts ho
  have hlt := of_plain ho
  have hlevel := Nat.le_zero.mp r.level
  have r' : Reads names room max ts ts' left l := { r with level := hlevel ▸ Nat.zero_le max }
  exact joined_sound names room max ts' r' (fun _ _ _ => hlevel ▸ Nat.zero_le _) hj
termination_by (ts.length, 1)

theorem joined_sound (names : String → Int64) (room max : Nat) (ts : List Token) {v left : Int64}
    {rest all : List Token} {l : Tree} (r : Reads names room max all ts left l)
    (hnext : NextFrom l.level ts) (h : plain (joined names room max left ts) = .ok (v, rest)) :
    ∃ e, Reads names room max all rest v e ∧ NextFrom (max + 1) rest := by
  rcases nextFrom_cases max ts with hstop | ⟨op, ts', rfl, hop, hle⟩
  · rw [plain_joined_stop hstop] at h
    cases h
    exact ⟨l, r, hstop⟩
  · obtain ⟨f, hf, hval⟩ := binary?_of_mem hop
    rw [plain_joined_go hf hle] at h
    obtain ⟨⟨right, ts''⟩, he, hj⟩ := exists_of_bind h
    obtain ⟨e, re, hnext'⟩ := expression_sound names room (op.priority - 1) ts' he
    have hlt : ts''.length < ts'.length + 1 := Nat.lt_succ_of_lt (of_plain he)
    cases hw : f left right with
    | none =>
      simp only [hw] at hj
      cases hj
    | some w =>
      simp only [hw] at hj
      rw [← hval] at hw
      have hpos := priority_pos op
      refine joined_sound names room max ts'' (r.binary re hop (hnext op hop rfl) hle hw) ?_ hj
      intro op' hop' hhead
      have := hnext' op' hop' hhead
      show op.priority ≤ op'.priority
      omega
termination_by (ts.length, 0)

end

/-! The tokens of a tree of the grammar are read, by the structure of the tree. -/

theorem level_le_lowestPriority {e : Tree} (h : e.Grouped) : e.level ≤ lowestPriority := by
  cases e with
  | binary op l r =>
    have hall : ∀ op ∈ binaryOperators, op.priority ≤ lowestPriority := by decide
    exact hall op h.1
  | name | integer | parens | unary => exact Nat.zero_le _

/-- A chain of operators goes on where the tokens of its left operand end. -/
structure IsRead (names : String → Int64) (room : Nat) (e : Tree) (v : Int64) : Prop where
  operand : e.level = 0 → ∀ rest, plain (operand names room (e.tokens ++ rest)) = .ok (v, rest)
  expression : ∀ {max rest}, e.level ≤ max → NextFrom e.level rest →
    plain (expression names room max (e.tokens ++ rest)) = plain (joined names room max v rest)

theorem isRead_of_operand {e : Tree}
    (h : ∀ rest, plain (operand names room (e.tokens ++ rest)) = .ok (v, rest)) :
    IsRead names room e v where
  operand _ := h
  expression _ _ := by
    rw [plain_expression, h]
    rfl

theorem nextFrom_parenRight (k : Nat) (rest : List Token) :
    NextFrom k (.operator .parenRight :: rest) := by
  intro op hop hhead
  cases hhead
  exact absurd hop (by decide)

theorem IsRead.parens {e : Tree} (h : IsRead names room e v) (hg : e.Grouped) :
    IsRead names (room + 1) (.parens e) v := by
  apply isRead_of_operand
  intro rest
  have hstop := fun k => nextFrom_parenRight k rest
  rw [Tree.tokens, List.cons_append, List.append_assoc, List.singleton_append,
    plain_operand_parens, h.expression (level_le_lowestPriority hg) (hstop _),
    plain_joined_stop (hstop _)]
  rfl

theorem IsRead.unary {e : Tree} (h : IsRead names room e v) (hl : e.level = 0) {op : Operator}
    (hop : op ∈ prefixOperators) :
    IsRead names (room + 1) (.unary op e) (Int64.ofInt (prefixMeaning op v.toInt)) := by
  apply isRead_of_operand
  intro rest
  obtain ⟨f, hf, hval⟩ := unary?_of_mem hop
  rw [Tree.tokens, List.cons_append, plain_operand_unary hf, h.operand hl, hval]
  rfl

/-- An expression that begins with a whole left operand goes on with the right one. -/
theorem IsRead.expression_binary {op : Operator} {l r : Tree} {left : Int64}
    {f : Int64 → Int64 → Option Int64} (hl : IsRead names room l left) (hf : binary? op = some f)
    (hle : l.level ≤ op.priority) (hmax : op.priority ≤ max) (rest : List Token) :
    plain (Condition.expression names room max ((Tree.binary op l r).tokens ++ rest)) = (do
      let (right, rest) ← plain
        (Condition.expression names room (op.priority - 1) (r.tokens ++ rest))
      match f left right with
      | none => .error .divisionByZero
      | some w => plain (joined names room max w rest)) := by
  rw [Tree.tokens, List.append_assoc, List.cons_append,
    hl.expression (Nat.le_trans hle hmax) (nextFrom_operator hle _), plain_joined_go hf hmax]

/-- A right operand ends where nothing that binds more tightly than its operator comes next. -/
theorem IsRead.expression_right {op : Operator} {r : Tree} {right : Int64}
    (hr : IsRead names room r right) (hlt : r.level < op.priority)
    (hnext : NextFrom op.priority rest) :
    plain (Condition.expression names room (op.priority - 1) (r.tokens ++ rest)) =
      .ok (right, rest) := by
  have hpos := priority_pos op
  rw [hr.expression (Nat.le_sub_one_of_lt hlt) (hnext.mono (Nat.le_of_lt hlt))]
  apply plain_joined_stop
  exact hnext.mono (by omega)

theorem IsRead.binary {op : Operator} {l r : Tree} {left right w : Int64}
    (hl : IsRead names room l left) (hr : IsRead names room r right) (hop : op ∈ binaryOperators)
    (hle : l.level ≤ op.priority) (hlt : r.level < op.priority)
    (hw : (meaning? op left.toInt right.toInt).map Int64.ofInt = some w) :
    IsRead names room (.binary op l r) w where
  operand h := absurd h (Nat.ne_of_gt (priority_pos op))
  expression := by
    intro max rest hmax hnext
    obtain ⟨f, hf, hval⟩ := binary?_of_mem hop
    rw [hl.expression_binary hf hle hmax, hr.expression_right hlt hnext]
    simp only [Bind.bind, Except.bind, ← hval, hw]

theorem isRead {e : Tree} (hg : e.Grouped) (hd : e.depth < room) (hv : e.value? names = some v) :
    IsRead names room e v := by
  induction e generalizing room v with
  | name text =>
    obtain ⟨room, rfl⟩ := Nat.exists_eq_succ_of_ne_zero (Nat.ne_of_gt hd)
    cases hv
    apply isRead_of_operand
    intro rest
    rw [Tree.tokens, List.singleton_append, Condition.operand]
    rfl
  | integer n =>
    obtain ⟨room, rfl⟩ := Nat.exists_eq_succ_of_ne_zero (Nat.ne_of_gt hd)
    obtain rfl := (ofInt_toNat n).symm.trans (Option.some.inj hv)
    apply isRead_of_operand
    intro rest
    rw [Tree.tokens, List.singleton_append, Condition.operand]
    rfl
  | parens e ih =>
    obtain ⟨room, rfl⟩ := Nat.exists_eq_succ_of_ne_zero (Nat.ne_of_gt (Nat.zero_lt_of_lt hd))
    exact (ih hg (Nat.lt_of_succ_lt_succ hd) hv).parens hg
  | unary op e ih =>
    obtain ⟨room, rfl⟩ := Nat.exists_eq_succ_of_ne_zero (Nat.ne_of_gt (Nat.zero_lt_of_lt hd))
    obtain ⟨hop, hl, hg⟩ := hg
    obtain ⟨a, ha, rfl⟩ := Option.map_eq_some_iff.mp hv
    exact (ih hg (Nat.lt_of_succ_lt_succ hd) ha).unary hl hop
  | binary op l r ihl ihr =>
    obtain ⟨hop, hle, hlt, hgl, hgr⟩ := hg
    obtain ⟨hdl, hdr⟩ := Nat.max_lt.mp hd
    obtain ⟨a, ha, hv⟩ := Option.bind_eq_some_iff.mp hv
    obtain ⟨b, hb, hw⟩ := Option.bind_eq_some_iff.mp hv
    exact (ihl hgl hdl ha).binary (ihr hgr hdr hb) hop hle hlt hw

theorem evaluate_eq_ok {v : Int64} : evaluate names ts = .ok v ↔
    plain (expression names maxDepth lowestPriority ts) = .ok (v, []) := by
  unfold evaluate
  by_cases hts : ts = []
  · subst hts
    rw [plain_expression, maxDepth, operand]
    constructor <;> intro h <;> cases h
  · rw [if_neg (by rwa [List.isEmpty_iff])]
    cases expression names maxDepth lowestPriority ts with
    | error e => constructor <;> intro h <;> cases h
    | ok r =>
      obtain ⟨w, rest, hlt⟩ := r
      cases rest with
      | nil =>
        constructor <;> intro h <;> cases h <;> rfl
      | cons t rest => constructor <;> intro h <;> cases h

theorem evaluate_eq_ok_of_tree {e : Tree} (hg : e.Grouped) (hd : e.depth < maxDepth)
    (hv : e.value? names = some v) : evaluate names e.tokens = .ok v := by
  have hend : ∀ k, NextFrom k [] := fun _ _ _ h => by cases h
  have h := (isRead hg hd hv).expression (level_le_lowestPriority hg) (hend _)
  rw [List.append_nil] at h
  rw [evaluate_eq_ok, h, plain_joined_stop (hend _)]

theorem evaluate_identifier (names : String → Int64) (name : String) :
    evaluate names [.identifier name] = .ok (names name) :=
  evaluate_eq_ok_of_tree (e := .name name) trivial (Nat.succ_pos 127) rfl

/-- The value of a tree depends on the names in it alone. -/
theorem Tree.value?_congr {names' : String → Int64} (e : Tree)
    (h : ∀ name, .identifier name ∈ e.tokens → names name = names' name) :
    e.value? names = e.value? names' := by
  induction e with
  | name text => exact congrArg some (h text List.mem_cons_self)
  | integer n => rfl
  | parens e ih => exact ih fun name hname => h name (by simp [tokens, hname])
  | unary op e ih => rw [value?, value?, ih fun name hname => h name (by simp [tokens, hname])]
  | binary op l r ihl ihr =>
    rw [value?, value?, ihl fun name hname => h name (by simp [tokens, hname]),
      ihr fun name hname => h name (by simp [tokens, hname])]

theorem evaluate_ok_congr {names' : String → Int64}
    (h : ∀ name, .identifier name ∈ ts → names name = names' name)
    (hv : evaluate names ts = .ok v) : evaluate names' ts = .ok v := by
  obtain ⟨e, r, -⟩ := expression_sound names maxDepth lowestPriority ts (evaluate_eq_ok.mp hv)
  have htokens : e.tokens = ts := by rw [r.tokens, List.append_nil]
  have hvalue : e.value? names' = some v := by
    rw [← e.value?_congr (by rwa [htokens]), r.value]
  rw [← htokens]
  exact evaluate_eq_ok_of_tree r.grouped r.depth hvalue

/-- A condition has a value if and only if its tokens are those of a tree of the grammar that is not
too deep and divides by no zero, and it is the value of the tree. -/
theorem evaluate_eq_ok_iff {hash : NameHash} (d : Definitions hash) (ts : List Token) (v : Int64) :
    evaluate d.value ts = .ok v ↔ ∃ e : Tree, e.tokens = ts ∧ e.Grouped ∧ e.depth < 128 ∧
      e.value? (fun name => ((d.get? name).map Definition.value).getD 0) = some v := by
  have hnames : (fun name => ((d.get? name).map Definition.value).getD 0) = d.value := by
    funext name
    unfold Definitions.value
    cases d.get? name <;> rfl
  rw [hnames]
  constructor
  · intro h
    obtain ⟨e, r, -⟩ := expression_sound d.value maxDepth lowestPriority ts (evaluate_eq_ok.mp h)
    exact ⟨e, by rw [r.tokens, List.append_nil], r.grouped, r.depth, r.value⟩
  · rintro ⟨e, rfl, hg, hd, hv⟩
    exact evaluate_eq_ok_of_tree hg hd hv

end ScriptFront.Condition
