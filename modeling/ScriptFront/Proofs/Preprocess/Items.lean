import ScriptFront.Proofs.Preprocess.Frame

/-! Lines as a tree: blocks with one or two branches, and what stands outside of them. The meaning
of a tree is told branch by branch, without a stack of open blocks. -/
namespace ScriptFront

open FilePass

/-- A line that is the directive `d`. -/
abbrev DirectiveLine (d : Directive) := { line : Line // IsDirective line d }

/-- A line that opens or closes no branch. -/
inductive Leaf
  | code (line : { line : Line // IsCode line })
  | define (body : List Char) (line : DirectiveLine (.define body))
  | includeFile (line : DirectiveLine .includeFile)
  | unknown (name : String) (line : DirectiveLine (.unknown name))

inductive Items
  | done
  | leaf (leaf : Leaf) (rest : Items)
  | ifThen (condition : List Char) (opening : DirectiveLine (.if_ condition)) (body : Items)
      (closing : DirectiveLine .endif) (rest : Items)
  | ifElse (condition : List Char) (opening : DirectiveLine (.if_ condition)) (body : Items)
      (middle : DirectiveLine .else_) (other : Items) (closing : DirectiveLine .endif)
      (rest : Items)

variable {hash : NameHash}

namespace Leaf

def line : Leaf → Line
  | code line => line
  | define _ line | includeFile line | unknown _ line => line

/-- What the line becomes, and what is found and defined by it. -/
def meaning (s : Symbols hash) (r : LineReport) (index : Nat) :
    Leaf → Line × LineReport × Symbols hash
  | code line => ((Text.Comment.erase line.1).text, r, s)
  | define body _ =>
    let (p, s) := (outside r).define s index body
    ([], p.report, s)
  | includeFile line => (line, r, s)
  | unknown name _ =>
    let message := s!"invalid preprocessor command `#{name}`"
    ([], r.addErrors [⟨index, .unknownDirective, message⟩], s)

end Leaf

namespace Items

def lines : Items → List Line
  | done => []
  | leaf l rest => l.line :: rest.lines
  | ifThen _ opening body closing rest => opening.1 :: (body.lines ++ closing.1 :: rest.lines)
  | ifElse _ opening body middle other closing rest =>
    opening.1 :: (body.lines ++ middle.1 :: (other.lines ++ closing.1 :: rest.lines))

def length (t : Items) : Nat := t.lines.length

/-- How deep blocks are nested. -/
def nesting : Items → Nat
  | done => 0
  | leaf _ rest => rest.nesting
  | ifThen _ _ body _ rest => max (body.nesting + 1) rest.nesting
  | ifElse _ _ body _ other _ rest => max (max body.nesting other.nesting + 1) rest.nesting

def blank (t : Items) : List Line := t.lines.map fun _ => []

/-- Whether a condition holds with the definitions so far. One without a value does not, and its
faults are found at its line. -/
def holds (s : Symbols hash) (r : LineReport) (index : Nat) (condition : List Char) :
    Bool × LineReport × Symbols hash :=
  let read := tokenize s.names condition
  let s := { s with names := read.names }
  if read.errors.isEmpty then
    match Condition.evaluate s.definitions.value read.tokens with
    | .ok v => (v != 0, r, s)
    | .error e =>
      let message := s!"invalid preprocessor expression: {e.message}"
      (false, r.addErrors [⟨index, e.code, message⟩], s)
  else (false, r.addErrors (read.errors.map (·.atLine index)), s)

/-- What the lines become that have the given index and the following ones, and what is found and
defined by them. The other branch of a block becomes empty lines and does nothing. -/
def meaning (s : Symbols hash) (r : LineReport) (index : Nat) :
    Items → List Line × LineReport × Symbols hash
  | done => ([], r, s)
  | leaf l rest =>
    let (line, r, s) := l.meaning s r index
    let (ls, r, s) := rest.meaning s r (index + 1)
    (line :: ls, r, s)
  | ifThen condition _ body _ rest =>
    let (c, r, s) := holds s r index condition
    let (ls, r, s) := if c then body.meaning s r (index + 1) else (body.blank, r, s)
    let (ls', r, s) := rest.meaning s r (index + 1 + body.length + 1)
    ([] :: (ls ++ [] :: ls'), r, s)
  | ifElse condition _ body _ other _ rest =>
    let (c, r, s) := holds s r index condition
    let start := index + 1 + body.length + 1
    let (ls, r, s) := if c then body.meaning s r (index + 1) else (body.blank, r, s)
    let (ls', r, s) := if !c then other.meaning s r start else (other.blank, r, s)
    let (ls'', r, s) := rest.meaning s r (start + other.length + 1)
    ([] :: (ls ++ [] :: (ls' ++ [] :: ls'')), r, s)

end Items
end ScriptFront
