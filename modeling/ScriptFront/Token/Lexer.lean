import ScriptFront.Interner
import ScriptFront.Token.Lexeme

/-! Splitting a line into tokens. The texts of labels, literals and identifiers are entered in a
table of names; one that the table refuses costs its token, and no other. -/
namespace ScriptFront

/-- A fault in a line and the number of bytes before it. -/
structure LexError where
  cause : LexCause
  offset : Nat
  deriving DecidableEq, Repr

/-- The tokens and the faults of a line, and the table of names after it. -/
structure LexResult (hash : NameHash) where
  tokens : List Token
  errors : List LexError
  names : Interner hash

namespace LexResult

variable {hash : NameHash}

def addToken (t : Token) (r : LexResult hash) : LexResult hash := { r with tokens := t :: r.tokens }

def addError (e : LexError) (r : LexResult hash) : LexResult hash := { r with errors := e :: r.errors }

end LexResult

namespace Lexeme

variable {hash : NameHash}

/-- Enters a text in the table. If the table refuses it, the token is lost. -/
def enter (names : Interner hash) (offset : Nat) (text : String) (t : Token) :
    Except LexError Token × Interner hash :=
  match names.intern text with
  | .ok (_, names) => (.ok t, names)
  | .error collision => (.error ⟨.nameCollision collision.incoming, offset⟩, names)

/-- What becomes of a part of a line: a token or a fault. -/
def make (names : Interner hash) (offset : Nat) : Lexeme → Except LexError Token × Interner hash
  | token t => (.ok t, names)
  | error cause => (.error ⟨cause, offset⟩, names)
  | stringLiteral text => enter names offset text (.stringLiteral text)
  | label name => enter names offset name (.label name)
  | identifier name => enter names offset name (.identifier name)

def resolve (names : Interner hash) : List (Nat × Lexeme) → LexResult hash
  | [] => ⟨[], [], names⟩
  | (offset, x) :: xs =>
    match x.make names offset with
    | (.ok t, names) => (resolve names xs).addToken t
    | (.error e, names) => (resolve names xs).addError e

end Lexeme

def tokenize {hash : NameHash} (names : Interner hash) (line : Line) : LexResult hash :=
  Lexeme.resolve names (lexemes 0 line)

end ScriptFront
