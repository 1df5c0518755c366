import ScriptFront.Preprocess.Report
import ScriptFront.Token.Pooled

/-! The tokens of all lines of a text, one list for each line, in one pool. -/
namespace ScriptFront

structure TokenLines where
  pool : TokenPool
  lists : List TokenList

namespace TokenLines

def empty : TokenLines := ⟨.empty, []⟩

/-- Empties the lists until one of them fails. -/
def clearLists (pool : TokenPool) :
    List TokenList → Except PoolError Unit × List TokenList × TokenPool
  | [] => (.ok (), [], pool)
  | l :: ls =>
    match l.clear pool with
    | ⟨.error e, l, pool⟩ => (.error e, l :: ls, pool)
    | ⟨.ok _, l, pool⟩ =>
      let (result, ls, pool) := clearLists pool ls
      (result, l :: ls, pool)

/-- Gives up all tokens, and the pages of the pool that are not used any more. -/
def clear (t : TokenLines) : Except PoolError Unit × TokenLines :=
  match clearLists t.pool t.lists with
  | (.error e, lists, pool) => (.error e, ⟨pool, lists⟩)
  | (.ok _, _, pool) => (.ok (), ⟨pool.shrink.2, []⟩)

/-- What tokenizing lines gives: the tokens, the names and the faults of the lines. -/
structure Step (hash : NameHash) where
  result : Except PoolError Unit
  tokens : TokenLines
  names : Interner hash
  errors : List LineError

/-- Tokenizes lines with the given indices on, and puts their tokens after those that are there. -/
def addLines {hash : NameHash} (t : TokenLines) (names : Interner hash) (index : Nat) :
    List Line → Step hash
  | [] => ⟨.ok (), t, names, []⟩
  | line :: lines =>
    match TokenList.ofLine t.pool names line with
    | ⟨.error e, _, pool, names, _⟩ => ⟨.error e, { t with pool }, names, []⟩
    | ⟨.ok _, l, pool, names, errors⟩ =>
      let rest := addLines ⟨pool, t.lists⟩ names (index + 1) lines
      { rest with
        tokens := { rest.tokens with lists := l :: rest.tokens.lists }
        errors := errors.map (·.atLine index) ++ rest.errors }

def line (t : TokenLines) (index : Nat) : Except PoolError (List Token) :=
  match t.lists[index]? with
  | none => .ok []
  | some l => (l.values t.pool).mapM id

end TokenLines
end ScriptFront
