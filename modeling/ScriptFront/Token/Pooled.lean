import ScriptFront.Pool.HandleList
import ScriptFront.Token.Lexer

/-! The tokens of a line in a pool. -/
namespace ScriptFront

abbrev TokenPool := Pool Token

/-- The tokens of one line. Most lines need no storage of their own. -/
abbrev TokenList := HandleList 8

/-- What putting the tokens of a line in a list gives. -/
structure PooledLine (hash : NameHash) where
  result : Except PoolError Unit
  list : TokenList
  pool : TokenPool
  names : Interner hash
  errors : List LexError

namespace TokenList

variable {hash : NameHash}

/-- Makes the tokens of the parts in the pool, and puts each at the end of the list. Where the pool
has no room for a token, its text is entered already, and the parts after it are left alone. -/
def addParts (l : TokenList) (pool : TokenPool) (names : Interner hash) :
    List (Nat × Lexeme) → PooledLine hash
  | [] => ⟨.ok (), l, pool, names, []⟩
  | (offset, x) :: xs =>
    match x.make names offset with
    | (.error e, names) =>
      let rest := addParts l pool names xs
      { rest with errors := e :: rest.errors }
    | (.ok t, names) =>
      match l.createBack pool t with
      | ⟨.error e, l, pool⟩ => ⟨.error e, l, pool, names, []⟩
      | ⟨.ok _, l, pool⟩ => addParts l pool names xs

def ofLine (pool : TokenPool) (names : Interner hash) (line : Line) : PooledLine hash :=
  addParts .empty pool names (lexemes 0 line)

end TokenList
end ScriptFront
