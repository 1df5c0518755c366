import ScriptFront.Proofs.Pool.Ledger
import ScriptFront.Proofs.Pool.WellFormed

/-! A pool behaves like the ideal store. The relation `Follows` holds the one reason why no dead
handle is valid again: its generation lies behind that of its slot, also while the slot's page has
no slots. -/
namespace ScriptFront

variable {α : Type}

namespace Pool

/-- The answer of an operation that leaves the pool as it is if it fails. -/
def answer {β : Type} (p : Pool α) (r : Except PoolError (β × Pool α)) (f : β → PoolAnswer α) :
    PoolAnswer α × Pool α :=
  match r with
  | .ok (b, q) => (f b, q)
  | .error e => (.failed e, p)

def step (p : Pool α) : PoolOp α → PoolAnswer α × Pool α
  | .create value =>
    match p.create value with
    | (.ok h, q) => (.made h, q)
    | (.error e, q) => (.failed e, q)
  | .retain h => p.answer (p.retain h) .count
  | .release h => p.answer (p.release h) .released
  | .get h => p.answer ((p.get h).map (·, p)) .value
  | .set h value => p.answer ((p.set h value).map ((), ·)) fun _ => .done
  | .refs h => p.answer ((p.refs h).map (·, p)) .count
  | .contains h => (.known (p.contains h), p)
  | .shrink => (.pages p.shrink.1, p.shrink.2)

def run (p : Pool α) : List (PoolOp α) → List (PoolEvent α) × Pool α
  | [] => ([], p)
  | op :: ops =>
    let (a, q) := p.step op
    let (es, q) := q.run ops
    ((op, a) :: es, q)

theorem step_of_dead {p : Pool α} {op : PoolOp α} {h : Handle} (hop : op.needs? = some h)
    (hx : p.find? h = none) : p.step op = (.failed (.stale h), p) := by
  cases op with
  | retain =>
    cases hop
    rw [step, retain_of_find?_eq_none hx, answer]
  | release =>
    cases hop
    rw [step, release_of_find?_eq_none hx, answer]
  | get | set | refs =>
    cases hop
    simp only [step, Pool.get, Pool.set, Pool.refs, find_of_find?_eq_none hx]
    rfl
  | create | contains | shrink => cases hop

/-- The pool has the objects of the ledger, and no generation above `n`. The slots of dead handles
have gone on to a later generation. -/
structure Follows (p : Pool α) (l : Ledger α) (n : Nat) : Prop where
  wellFormed : p.WellFormed
  object : p.find? = l.object?
  issued : ∀ h x, p.find? h = some x → h ∈ l.issued
  retired : ∀ h ∈ l.issued, p.find? h = none →
    ∃ g, p.generation? h.index = some g ∧ h.generation < g
  generation_le : ∀ i g, p.generation? i = some g → g.toNat ≤ n
  pages : ∀ k, k ∈ l.pages ↔ p.hasPage k = true

theorem follows_empty : Follows (empty : Pool α) .empty 0 where
  wellFormed := wellFormed_empty
  object := by funext h; simp [find?, slot?, empty, Ledger.empty]
  issued := by simp [find?, slot?, empty]
  retired := by simp [Ledger.empty]
  generation_le := by simp [generation?, empty]
  pages := by simp [hasPage, empty, Ledger.empty]

theorem Follows.mem_live {p : Pool α} {l : Ledger α} {n : Nat} (f : Follows p l n) {h : Handle} :
    h ∈ l.live ↔ ∃ x, p.find? h = some x := by
  unfold Ledger.live
  rw [Finset.mem_filter, ← f.object, Option.isSome_iff_exists]
  exact ⟨And.right, fun ⟨x, hx⟩ => ⟨f.issued h x hx, x, hx⟩⟩

/-- A slot changes. Its handle stays valid, or its object dies and the slot goes on to a later
generation. -/
theorem Follows.record {p q : Pool α} {l : Ledger α} {n m i : Nat} {s t : Slot α}
    (f : Follows p l n) (r : Replaces p q i s t) (w : q.WellFormed)
    (ht : t.generation = s.generation ∨ t.object = none)
    (hlt : t.object = none → s.generation < t.generation)
    (htm : t.generation.toNat ≤ m) (hnm : n ≤ m) :
    Follows q (l.record ⟨i, s.generation⟩ t.object) m := by
  have hfind := r.find? ht
  have hbefore := generation?_of_slot? r.before
  have hle : s.generation ≤ t.generation := by
    rcases ht with ht | ht
    · rw [ht]; exact UInt32.le_refl _
    · exact UInt32.le_of_lt (hlt ht)
  refine ⟨w, ?_, ?_, ?_, ?_, ?_⟩
  · rw [hfind, f.object]; rfl
  · intro h z hz
    by_cases he : h = ⟨i, s.generation⟩
    · exact Finset.mem_insert.mpr (Or.inl he)
    · rw [hfind, Function.update_of_ne he] at hz
      exact Finset.mem_insert_of_mem (f.issued h z hz)
  · intro h hi hd
    rw [hfind] at hd
    rw [r.generation]
    by_cases he : h = ⟨i, s.generation⟩
    · subst he
      rw [Function.update_self] at hd
      exact ⟨t.generation, if_pos rfl, hlt hd⟩
    · rw [Function.update_of_ne he] at hd
      obtain ⟨g, hg, hlt⟩ := f.retired h ((Finset.mem_insert.mp hi).resolve_left he) hd
      by_cases hidx : i = h.index
      · rw [← hidx, hbefore] at hg
        obtain rfl := Option.some.inj hg
        exact ⟨t.generation, if_pos hidx, UInt32.lt_of_lt_of_le hlt hle⟩
      · exact ⟨g, by rw [if_neg hidx, hg], hlt⟩
  · intro j g hg
    rw [r.generation] at hg
    split_ifs at hg
    · obtain rfl := Option.some.inj hg
      exact htm
    · exact (f.generation_le j g hg).trans hnm
  · intro k
    rw [r.page, Ledger.record, Finset.mem_insert, f.pages]
    refine ⟨?_, Or.inr⟩
    rintro (rfl | hk)
    · rw [← isSome_slot?, r.before]; rfl
    · exact hk

theorem Follows.setObject {p : Pool α} {l : Ledger α} {n : Nat} (f : Follows p l n) {h : Handle}
    {x : Counted α} (hx : p.find? h = some x) (y : Counted α) :
    Follows (p.setObject h y) (l.record h (some y)) n := by
  have r := replaces_setObject hx y
  have hle := f.generation_le h.index h.generation (generation?_of_slot? r.before)
  exact f.record r (r.wellFormed_same f.wellFormed (by simp) (by simp) rfl) (Or.inl rfl) (by simp)
    hle le_rfl

theorem Follows.destroy {p : Pool α} {l : Ledger α} {n : Nat} (f : Follows p l n) {h : Handle}
    {x : Counted α} (hx : p.find? h = some x) (hn : n + 1 < 2 ^ 32) :
    Follows (p.destroy h) (l.record h none) (n + 1) := by
  have r := replaces_destroy hx
  have hle := f.generation_le h.index h.generation (generation?_of_slot? r.before)
  have hsucc : (h.generation + 1).toNat = h.generation.toNat + 1 := by
    rw [UInt32.toNat_add, UInt32.toNat_one]
    omega
  have hlt : h.generation < h.generation + 1 := by
    rw [UInt32.lt_iff_toNat_lt, hsucc]
    exact Nat.lt_succ_self _
  refine f.record r (r.wellFormed_empty f.wellFormed (by simp) rfl rfl) (Or.inr rfl)
    (fun _ => hlt) ?_ (Nat.le_succ n)
  show (h.generation + 1).toNat ≤ n + 1
  omega

/-- The handle of a free slot was never issued: it would be dead, and behind itself. -/
theorem Follows.not_issued {p : Pool α} {l : Ledger α} {n i : Nat} {g : UInt32}
    (f : Follows p l n) (hs : p.slot? i = some ⟨g, none⟩) : (⟨i, g⟩ : Handle) ∉ l.issued := by
  intro hi
  have hdead : p.find? ⟨i, g⟩ = none := by
    unfold Pool.find?
    rw [hs]
    simp
  obtain ⟨g', hg', hlt⟩ := f.retired _ hi hdead
  rw [generation?_of_slot? hs] at hg'
  obtain rfl := Option.some.inj hg'
  exact UInt32.lt_irrefl _ hlt

/-- A page that gets slots goes on where it was. -/
theorem Follows.opens {p q : Pool α} {l : Ledger α} {n k : Nat} (f : Follows p l n)
    (o : Opens p q k) (w : q.WellFormed) : Follows q { l with pages := insert k l.pages } n := by
  refine ⟨w, o.find?.trans f.object, ?_, ?_, ?_, ?_⟩
  · intro h x hx
    exact f.issued h x (o.find? ▸ hx)
  · intro h hi hd
    obtain ⟨g, hg, hlt⟩ := f.retired h hi (o.find? ▸ hd)
    refine ⟨g, ?_, hlt⟩
    rw [o.generation, hg]
    simp
  · intro i g hg
    rw [o.generation] at hg
    cases hp : p.generation? i with
    | some g' => exact f.generation_le i g (by simpa [hp] using hg)
    | none =>
      rw [hp] at hg
      split_ifs at hg
      obtain rfl := Option.some.inj hg
      exact Nat.zero_le n
  · intro j
    rw [o.page, Bool.or_eq_true, beq_iff_eq, Finset.mem_insert, f.pages]
    exact or_congr_left eq_comm

theorem Follows.card_live_of_full {p : Pool α} {l : Ledger α} {n : Nat} (f : Follows p l n)
    (hfull : p.Full) : maxSlots < l.live.card + pageSize := by
  have hcard : (Finset.range (maxSlots + 1 - pageSize)).card ≤ l.live.card := by
    refine Finset.card_le_card_of_injOn (fun i => ⟨i, (p.generation? i).getD 0⟩) ?_ ?_
    · intro i hi
      have hi' : i + pageSize ≤ maxSlots := by
        have := Finset.mem_range.mp hi
        omega
      obtain ⟨g, x, hs⟩ := hfull i hi'
      refine f.mem_live.mpr ⟨x, ?_⟩
      simpa [find?_eq_some_iff, generation?_of_slot? hs] using hs
    · intro i _ j _ hij
      exact congrArg Handle.index hij
  rw [Finset.card_range] at hcard
  unfold maxSlots pageSize at *
  omega

theorem Follows.mem_busyPages {p : Pool α} {l : Ledger α} {n : Nat} (f : Follows p l n) (k : Nat) :
    k ∈ l.busyPages ↔ p.pages[k]?.any (fun page => page.isResident && page.live != 0) = true := by
  have hzero := any_live_eq_zero_iff f.wellFormed.counts (k := k)
  unfold Ledger.busyPages
  rw [Finset.mem_inter, f.pages, hasPage, Finset.mem_image]
  cases hk : p.pages[k]? with
  | none => simp
  | some page =>
    rw [hk] at hzero
    simp only [Option.any_some, Bool.and_eq_true, bne_iff_ne, ne_eq, beq_iff_eq] at hzero ⊢
    refine and_congr_right fun _ => ?_
    rw [hzero]
    constructor
    · rintro ⟨h, hl, rfl⟩ ⟨-, hall⟩
      obtain ⟨x, hx⟩ := f.mem_live.mp hl
      cases hall h.index _ rfl (find?_eq_some_iff.mp hx)
    · intro hnot
      by_contra hno
      refine hnot ⟨(List.getElem?_eq_some_iff.mp hk).1, fun i s hi hs => ?_⟩
      by_contra hobj
      obtain ⟨x, hx⟩ := Option.ne_none_iff_exists'.mp hobj
      refine hno ⟨⟨i, s.generation⟩, f.mem_live.mpr ⟨x, ?_⟩, hi⟩
      rw [find?_eq_some_iff, hs, ← hx]

/-- A set of places in a list has as many elements as the list has there. -/
theorem card_eq_countP {β : Type} (xs : List β) (P : β → Bool) {s : Finset Nat}
    (hs : ∀ k, k ∈ s ↔ xs[k]?.any P = true) : s.card = xs.countP P := by
  induction xs using List.reverseRecOn generalizing s with
  | nil => simpa [Finset.eq_empty_iff_forall_notMem] using hs
  | append_singleton xs x ih =>
    have hlast : xs.length ∈ s ↔ P x = true := by simp [hs]
    have hrest : ∀ k, k ∈ s.erase xs.length ↔ xs[k]?.any P = true := by
      intro k
      rw [Finset.mem_erase, hs]
      rcases Nat.lt_trichotomy k xs.length with hk | rfl | hk
      · simp [List.getElem?_append_left hk, Nat.ne_of_lt hk]
      · simp
      · have hlen : (xs ++ [x]).length ≤ k := by rw [List.length_append]; exact hk
        simp [List.getElem?_eq_none hlen, Nat.le_of_lt hk]
    rw [List.countP_append, ← ih hrest, List.countP_singleton]
    by_cases hx : P x = true
    · rw [if_pos hx, Finset.card_erase_add_one (hlast.mpr hx)]
    · rw [if_neg hx, Finset.erase_eq_of_notMem (mt hlast.mp hx), Nat.add_zero]

theorem Follows.shrink_count {p : Pool α} {l : Ledger α} {n : Nat} (f : Follows p l n) :
    p.shrink.1 = l.pages.card - l.busyPages.card := by
  rw [card_eq_countP p.pages _ f.pages, card_eq_countP p.pages _ f.mem_busyPages]
  have hsplit : p.pages.countP Page.isResident =
      p.pages.countP (fun page => page.isResident && page.live != 0) +
        p.pages.countP (fun page => page.isResident && page.live == 0) := by
    rw [List.countP_eq_countP_filter_add p.pages _ (fun page => page.live != 0),
      List.countP_filter, List.countP_filter]
    simp only [bne, Bool.not_not]
  show p.pages.countP (fun page => page.isResident && page.live == 0) = _
  rw [hsplit]
  exact (Nat.add_sub_cancel_left ..).symm

theorem Follows.shrink {p : Pool α} {l : Ledger α} {n : Nat} (f : Follows p l n)
    (hn : n + 1 < 2 ^ 32) : Follows p.shrink.2 { l with pages := l.busyPages } (n + 1) := by
  have hfind := find?_shrink f.wellFormed.counts
  have hgen := generation?_shrink f.generation_le hn
  refine ⟨wellFormed_shrink f.wellFormed, hfind.trans f.object, ?_, ?_, ?_, ?_⟩
  · intro h x hx
    exact f.issued h x (hfind ▸ hx)
  · intro h hi hd
    obtain ⟨g, hg, hlt⟩ := f.retired h hi (hfind ▸ hd)
    obtain ⟨g', hg', hle⟩ := (hgen h.index).1 g hg
    exact ⟨g', hg', UInt32.lt_of_lt_of_le hlt hle⟩
  · intro i g hg
    exact (hgen i).2 g hg
  · intro k
    rw [hasPage_shrink]
    exact f.mem_busyPages k

theorem Follows.create {p : Pool α} {l : Ledger α} {n : Nat} (f : Follows p l n) (value : α) :
    ∃ m, Ledger.Step l (.create value) (p.step (.create value)).1 m ∧
      Follows (p.step (.create value)).2 m n := by
  rcases create_cases f.wellFormed value with
    ⟨he, -, ⟨k, o⟩, hfull⟩ | ⟨i, g, p', q, hq, hp', r, w⟩
  · have hfresh : k ∉ l.pages := by
      rw [f.pages, o.before]
      nofun
    simp only [Pool.step, he]
    exact ⟨_, .full value (f.card_live_of_full hfull) o.no_room hfresh,
      f.opens o.toOpens (o.wellFormed f.wellFormed)⟩
  · simp only [Pool.step, hq]
    obtain ⟨pages, hpages, f'⟩ : ∃ pages, insert (pageOf i) pages = insert (pageOf i) l.pages ∧
        Follows p' { l with pages } n := by
      rcases hp' with rfl | ⟨-, gr⟩
      · exact ⟨l.pages, rfl, f⟩
      · exact ⟨_, Finset.insert_idem _ _, f.opens gr.toOpens (gr.wellFormed f.wellFormed)⟩
    have hle := f'.generation_le i g (generation?_of_slot? r.before)
    have hrec := f'.record r w (Or.inl rfl) (by simp) hle le_rfl
    simp only [Ledger.record, hpages] at hrec
    exact ⟨_, .create value (f'.not_issued r.before), hrec⟩

theorem Follows.step {p : Pool α} {l : Ledger α} {n : Nat} (f : Follows p l n) (op : PoolOp α)
    (hn : n + (PoolEvent.wears (op, (p.step op).1)).toNat < 2 ^ 32) :
    ∃ m, Ledger.Step l op (p.step op).1 m ∧
      Follows (p.step op).2 m (n + (PoolEvent.wears (op, (p.step op).1)).toNat) := by
  have hobject : ∀ {h : Handle} {x : Counted α}, p.find? h = some x → l.object? h = some x :=
    fun hx => f.object ▸ hx
  -- An operation on a dead handle is one case, whatever it would do to an object.
  have hdead : ∀ {h : Handle}, op.needs? = some h → p.find? h = none →
      ∃ m, Ledger.Step l op (p.step op).1 m ∧
        Follows (p.step op).2 m (n + (PoolEvent.wears (op, (p.step op).1)).toNat) := by
    intro h hop hx
    rw [step_of_dead hop hx]
    exact ⟨l, .stale hop (f.object ▸ hx), f⟩
  cases op with
  | create value =>
    have hw : PoolEvent.wears (.create value, (p.step (.create value)).1) = false := by
      rcases hrun : p.create value with ⟨_ | _, q⟩ <;> simp only [Pool.step, hrun] <;> rfl
    rw [hw]
    exact f.create value
  | retain h =>
    cases hx : p.find? h with
    | none => exact hdead rfl hx
    | some x =>
      rw [Pool.step, retain_of_find? hx]
      split_ifs with hr
      · exact ⟨_, .retain (hobject hx) hr, f.setObject hx _⟩
      · exact ⟨l, .overflow (hobject hx) (Nat.le_of_not_lt hr), f⟩
  | release h =>
    cases hx : p.find? h with
    | none => exact hdead rfl hx
    | some x =>
      rw [Pool.step, release_of_find? hx] at hn ⊢
      split_ifs at hn ⊢ with hr
      · exact ⟨_, .release (hobject hx) hr, f.setObject hx _⟩
      · exact ⟨_, .destroy (hobject hx) (by omega), f.destroy hx hn⟩
  | get h =>
    cases hx : p.find? h with
    | none => exact hdead rfl hx
    | some x =>
      simp only [Pool.step, Pool.get, find_of_find? hx]
      exact ⟨l, .get (hobject hx), f⟩
  | set h value =>
    cases hx : p.find? h with
    | none => exact hdead rfl hx
    | some x =>
      simp only [Pool.step, Pool.set, find_of_find? hx]
      exact ⟨_, .set value (hobject hx), f.setObject hx _⟩
  | refs h =>
    cases hx : p.find? h with
    | none => exact hdead rfl hx
    | some x =>
      simp only [Pool.step, Pool.refs, find_of_find? hx]
      exact ⟨l, .refs (hobject hx), f⟩
  | contains h =>
    refine ⟨l, ?_, f⟩
    simp only [Pool.step, Pool.contains, f.object]
    exact .contains h
  | shrink =>
    refine ⟨_, ?_, f.shrink hn⟩
    simp only [Pool.step, f.shrink_count]
    exact .shrink

theorem Follows.run {p : Pool α} {l : Ledger α} {n : Nat} (f : Follows p l n)
    (ops : List (PoolOp α)) (hn : n + (p.run ops).1.countP PoolEvent.wears < 2 ^ 32) :
    ∃ m, Ledger.Run l (p.run ops).1 m ∧
      Follows (p.run ops).2 m (n + (p.run ops).1.countP PoolEvent.wears) := by
  induction ops generalizing p l n with
  | nil => exact ⟨l, .nil l, f⟩
  | cons op ops ih =>
    have hcount : (p.run (op :: ops)).1.countP PoolEvent.wears =
        (PoolEvent.wears (op, (p.step op).1)).toNat +
          ((p.step op).2.run ops).1.countP PoolEvent.wears := by
      simp only [Pool.run, List.countP_cons]
      cases PoolEvent.wears (op, (p.step op).1) <;> simp [Nat.add_comm]
    rw [hcount, ← Nat.add_assoc] at hn ⊢
    obtain ⟨l', s, f'⟩ := f.step op (by omega)
    obtain ⟨m, r, f''⟩ := ih f' hn
    exact ⟨m, .cons s r, f''⟩

theorem run_append (p : Pool α) (ops more : List (PoolOp α)) : p.run (ops ++ more) =
    ((p.run ops).1 ++ ((p.run ops).2.run more).1, ((p.run ops).2.run more).2) := by
  induction ops generalizing p with
  | nil => rfl
  | cons op ops ih => simp [run, ih]

/-- A pool answers every run as the ideal store does, as long as no generation can come round again.
No object is lost or changed by the growth or the loss of pages, and a handle that is dead at some
time is dead at all later times. -/
theorem run_refines_ledger (ops more : List (PoolOp α))
    (hw : ((empty : Pool α).run (ops ++ more)).1.countP PoolEvent.wears < 2 ^ 32) :
    ∃ l m, Ledger.Run .empty ((empty : Pool α).run ops).1 l ∧
      l.object? = ((empty : Pool α).run ops).2.find? ∧
      Ledger.Run l (((empty : Pool α).run ops).2.run more).1 m ∧
      m.object? = ((empty : Pool α).run (ops ++ more)).2.find? ∧
      ∀ op h, (op, .made h) ∈ ((empty : Pool α).run ops).1 →
        ((empty : Pool α).run ops).2.find? h = none →
        ((empty : Pool α).run (ops ++ more)).2.find? h = none := by
  rw [run_append] at hw ⊢
  rw [List.countP_append] at hw
  obtain ⟨l, r, f⟩ := follows_empty.run ops (by omega)
  obtain ⟨m, r', f'⟩ := f.run more (by omega)
  refine ⟨l, m, r, f.object.symm, r', f'.object.symm, fun op h hmade hdead => ?_⟩
  rw [f.object] at hdead
  rw [f'.object]
  exact r'.dead (r.mem_issued hmade) hdead

/-- A page is emptied, given back and revived: its first handle stays dead. -/
theorem run_refines_ledger_revived :
    let ops : List (PoolOp Nat) := [.create 7, .retain ⟨0, 0⟩, .release ⟨0, 0⟩]
    let more : List (PoolOp Nat) := [.shrink, .create 8, .get ⟨0, 0⟩]
    (empty.run (ops ++ more)).1.countP PoolEvent.wears < 2 ^ 32 ∧
      (empty.run (ops ++ more)).1 = [(.create 7, .made ⟨0, 0⟩), (.retain ⟨0, 0⟩, .count 1),
        (.release ⟨0, 0⟩, .released (some 7)), (.shrink, .pages 1), (.create 8, .made ⟨0, 2⟩),
        (.get ⟨0, 0⟩, .failed (.stale ⟨0, 0⟩))] ∧
      (empty.run (ops ++ more)).2.find? ⟨0, 0⟩ = none := by
  intro ops more
  have hw : (empty.run (ops ++ more)).1.countP PoolEvent.wears < 2 ^ 32 := by decide +kernel
  obtain ⟨l, m, -, -, -, -, hdead⟩ := run_refines_ledger ops more hw
  exact ⟨hw, by decide +kernel, hdead (.create 7) ⟨0, 0⟩ (by decide +kernel) (by decide +kernel)⟩

end Pool
end ScriptFront
