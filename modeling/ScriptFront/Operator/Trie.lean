import ScriptFront.Operator

/-! The spellings of the operators as a trie. It is made by entering one spelling after the other,
and a lookup goes down from a root, byte by byte, and remembers the last spelling that it passed. -/
namespace ScriptFront

namespace Operator

/-- The spellings by their numbers. -/
def spellings : List String :=
  ["=", "+=", "-=", "*=", "/=", "%=", "<<=", ">>=", "&=", "|=", "^=",
   "+", "-", "*", "/", "%", "<<", ">>", "&", "|", "^",
   "&&", "||",
   "!", "~", "--", "++",
   "==", "!=", "<", "<=", ">", ">=",
   "?", ":", ";", ",", "(", ")", "[", "]"]

/-- The bytes of a text of ASCII characters. -/
def bytes (s : List Char) : List UInt8 := s.map Char.toUInt8

/-- The number of a spelling, and how many bytes it takes. -/
structure Found where
  index : Nat
  len : Nat
  deriving DecidableEq, Repr

end Operator

structure TrieNode where
  byte : UInt8
  /-- The number of the spelling that ends here. -/
  operator : Option Nat
  firstChild : Option Nat
  nextSibling : Option Nat

/-- The nodes are numbered in the order in which they were made. A sibling was made earlier, as new
children come first, so a walk along siblings ends. -/
structure OperatorTrie where
  nodes : Array TrieNode
  /-- A root for each byte of printable ASCII. -/
  roots : Vector (Option Nat) 96
  child_lt : ∀ (i : Nat) (hi : i < nodes.size), ∀ j ∈ nodes[i].firstChild, j < nodes.size
  sibling_lt : ∀ (i : Nat) (hi : i < nodes.size), ∀ j ∈ nodes[i].nextSibling, j < i

namespace OperatorTrie

variable (t : OperatorTrie)

def empty : OperatorTrie where
  nodes := #[]
  roots := .replicate 96 none
  child_lt := nofun
  sibling_lt := nofun

/-- The bytes that have a place among the roots. -/
abbrev IsPrintable (b : UInt8) : Prop := 0x20 ≤ b.toNat ∧ b.toNat < 0x80

def slot? (b : UInt8) : Option (Fin 96) :=
  if h : IsPrintable b then some ⟨b.toNat - 0x20, by unfold IsPrintable at h; omega⟩ else none

/-- The first node for the byte, from the node `i` along its siblings. -/
def sibling? (b : UInt8) (i : Nat) : Option Nat :=
  if hi : i < t.nodes.size then
    if t.nodes[i].byte = b then some i
    else
      match hj : t.nodes[i].nextSibling with
      | some j => sibling? b j
      | none => none
  else none
termination_by i
decreasing_by exact t.sibling_lt i hi j hj

def firstChild? (i : Nat) : Option Nat := t.nodes[i]?.bind (·.firstChild)

def child? (parent : Nat) (b : UInt8) : Option Nat := (t.firstChild? parent).bind (t.sibling? b)

/-- The node for the byte below a node, or among the roots. -/
def next? (current : Option Nat) (b : UInt8) : Option Nat :=
  match current with
  | none => (slot? b).bind fun i => t.roots[i]
  | some parent => t.child? parent b

theorem firstChild?_lt {i j : Nat} (h : t.firstChild? i = some j) : j < t.nodes.size := by
  obtain ⟨node, hnode, hj⟩ := Option.bind_eq_some_iff.mp h
  obtain ⟨hi, rfl⟩ := Array.getElem?_eq_some_iff.mp hnode
  exact t.child_lt i hi j hj

/-- A new node, to which no other leads yet. -/
def push (b : UInt8) (sibling : Option Nat) (h : ∀ j ∈ sibling, j < t.nodes.size) :
    OperatorTrie where
  nodes := t.nodes.push ⟨b, none, none, sibling⟩
  roots := t.roots
  child_lt i hi j hj := by
    rw [Array.getElem_push] at hj
    rw [Array.size_push]
    split at hj
    · exact Nat.lt_succ_of_lt (t.child_lt i _ j hj)
    · cases hj
  sibling_lt i hi j hj := by
    rw [Array.getElem_push] at hj
    split at hj
    · exact t.sibling_lt i _ j hj
    · rw [Array.size_push] at hi
      have := h j hj
      omega

def setRoot (b : UInt8) (i : Nat) : OperatorTrie :=
  match slot? b with
  | some slot => { t with roots := t.roots.set slot (some i) }
  | none => t

def setFirstChild (parent i : Nat) (h : i < t.nodes.size) : OperatorTrie where
  nodes := t.nodes.modify parent fun node => { node with firstChild := some i }
  roots := t.roots
  child_lt k hk j hj := by
    rw [Array.getElem_modify] at hj
    rw [Array.size_modify] at hk ⊢
    split at hj
    · exact Option.some.inj hj ▸ h
    · exact t.child_lt k hk j hj
  sibling_lt k hk j hj := by
    rw [Array.getElem_modify] at hj
    rw [Array.size_modify] at hk
    split at hj
    · exact t.sibling_lt k hk j hj
    · exact t.sibling_lt k hk j hj

def setOperator (i index : Nat) : OperatorTrie where
  nodes := t.nodes.modify i fun node => { node with operator := some index }
  roots := t.roots
  child_lt k hk j hj := by
    rw [Array.getElem_modify] at hj
    rw [Array.size_modify] at hk ⊢
    split at hj
    · exact t.child_lt k hk j hj
    · exact t.child_lt k hk j hj
  sibling_lt k hk j hj := by
    rw [Array.getElem_modify] at hj
    rw [Array.size_modify] at hk
    split at hj
    · exact t.sibling_lt k hk j hj
    · exact t.sibling_lt k hk j hj

/-- A new node below `parent`, before the children that it has, or a new root. -/
def grow (parent : Option Nat) (b : UInt8) : OperatorTrie :=
  match parent with
  | none => (t.push b none nofun).setRoot b t.nodes.size
  | some p =>
    (t.push b (t.firstChild? p) fun _ => t.firstChild?_lt).setFirstChild p t.nodes.size
      (by simp [push])

/-- Goes down from `parent` along a word, with new nodes where there are none yet. -/
def enter (t : OperatorTrie) (parent : Option Nat) : List UInt8 → OperatorTrie × Option Nat
  | [] => (t, parent)
  | b :: w =>
    match t.next? parent b with
    | some node => t.enter (some node) w
    | none => (t.grow parent b).enter (some t.nodes.size) w

def insert (w : List UInt8) (index : Nat) : OperatorTrie :=
  match t.enter none w with
  | (t, some last) => t.setOperator last index
  | (t, none) => t

/-- The spellings are entered in their order. -/
def build (words : List (List UInt8)) : OperatorTrie :=
  words.zipIdx.foldl (fun t (w, index) => t.insert w index) empty

def operator? (i : Nat) : Option Nat := t.nodes[i]?.bind (·.operator)

/-- Goes on behind `len` bytes, which led to the node `current`. -/
def lookupFrom (current : Option Nat) (len : Nat) (best : Option Operator.Found) :
    List UInt8 → Option Operator.Found
  | [] => best
  | b :: s =>
    if IsPrintable b then
      match t.next? current b with
      | some node =>
        let best := ((t.operator? node).map fun index => ⟨index, len + 1⟩) <|> best
        lookupFrom (some node) (len + 1) best s
      | none => best
    else best

def lookup (s : List UInt8) : Option Operator.Found := t.lookupFrom none 0 none s

end OperatorTrie

namespace Operator

def trie : OperatorTrie := .build (spellings.map fun w => bytes w.toList)

/-- The longest spelling that the bytes begin with. -/
def find? (s : List UInt8) : Option Found := trie.lookup s

end Operator
end ScriptFront
