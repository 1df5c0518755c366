import ScriptFront.Condition
import ScriptFront.Definitions
import ScriptFront.Preprocess.Directive
import ScriptFront.Preprocess.Report

/-! Preprocessing a file line by line: conditions choose the lines that stay, definitions take
effect, and comments go. No line is added or removed, so the numbers of the lines stay true. -/
namespace ScriptFront

/-- An open `#if`. -/
structure Block where
  openedAt : Nat
  /-- All blocks around it are in a chosen branch, and it is not nested too deeply. -/
  parentActive : Bool
  /-- The present branch is the chosen one. -/
  taken : Bool
  seenElse : Bool
  /-- It counts as a level of nesting. -/
  counted : Bool
  deriving DecidableEq, Repr

def Block.isActive (b : Block) : Bool := b.parentActive && b.taken

/-- Where the pass over a file stands: the open blocks with the innermost first, the line of the
open block comment, and what was found so far. -/
structure FilePass where
  blocks : List Block
  depth : DepthLimit
  openComment : Option Nat
  report : LineReport
  deriving DecidableEq, Repr

/-- What the passes over the files of a script share. -/
structure Symbols (hash : NameHash) where
  names : Interner hash
  definitions : Definitions hash

namespace FilePass

def maxDepth : Nat := 256

def start : FilePass := ⟨[], .new maxDepth, none, .empty⟩

def isActive (p : FilePass) : Bool := p.blocks.head?.all Block.isActive

def addError (p : FilePass) (line : Nat) (code : ErrorCode) (message : String) : FilePass :=
  { p with report := p.report.addErrors [⟨line, code, message⟩] }

def addErrors (p : FilePass) (es : List LineError) : FilePass :=
  { p with report := p.report.addErrors es }

variable {hash : NameHash}

/-- The value of an expression, if it has one. Its faults go to the given line. -/
def evaluate (p : FilePass) (s : Symbols hash) (index : Nat) (text : List Char) :
    Option Int64 × FilePass × Symbols hash :=
  let r := tokenize s.names text
  let s := { s with names := r.names }
  if r.errors.isEmpty then
    match Condition.evaluate s.definitions.value r.tokens with
    | .ok v => (some v, p, s)
    | .error e =>
      (none, p.addError index e.code s!"invalid preprocessor expression: {e.message}", s)
  else (none, p.addErrors (r.errors.map (·.atLine index)), s)

/-- Opens a block in a branch that is not chosen, where its condition is not read. -/
def openSkipped (p : FilePass) (index : Nat) : FilePass :=
  match p.depth.descend with
  | .ok depth => { p with depth, blocks := ⟨index, false, false, false, true⟩ :: p.blocks }
  | .error e =>
    let p := p.addError index .nestingTooDeep s!"#if nesting exceeds the limit of {e.limit}"
    { p with blocks := ⟨index, false, false, false, false⟩ :: p.blocks }

/-- Opens a block. A condition without a value counts as no. -/
def openBlock (p : FilePass) (s : Symbols hash) (index : Nat) (condition : List Char) :
    FilePass × Symbols hash :=
  match p.isActive, p.depth.descend with
  | true, .ok depth =>
    let (v, p, s) := { p with depth }.evaluate s index condition
    let taken := v.any (· != 0)
    ({ p with blocks := ⟨index, true, taken, false, true⟩ :: p.blocks }, s)
  | _, _ => (p.openSkipped index, s)

def otherBranch (p : FilePass) (index : Nat) : FilePass :=
  match p.blocks with
  | [] => p.addError index .elseWithoutIf "#else without #if"
  | b :: bs =>
    if b.seenElse then p.addError index .duplicateElse "#else already seen for this #if"
    else { p with blocks := { b with seenElse := true, taken := !b.taken } :: bs }

def closeBlock (p : FilePass) (index : Nat) : FilePass :=
  match p.blocks with
  | [] => p.addError index .endifWithoutIf "#endif without #if"
  | b :: bs => { p with blocks := bs, depth := if b.counted then p.depth.ascend else p.depth }

/-- Gives a name a value. Another value than before is worth a warning. -/
def setValue (p : FilePass) (s : Symbols hash) (index : Nat) (name : String) (value : Int64) :
    FilePass × Symbols hash :=
  let (old, definitions) := s.definitions.set name value
  let s := { s with definitions }
  match old with
  | none => (p, s)
  | some old =>
    if old = value then (p, s)
    else
      let message := s!"{name} redefined from {old.toInt} to {value.toInt}"
      ({ p with report := p.report.addWarning ⟨index, .redefinition, message⟩ }, s)

/-- A definition without an expression gives the value 1. -/
def define (p : FilePass) (s : Symbols hash) (index : Nat) (body : List Char) :
    FilePass × Symbols hash :=
  match Directive.definition? body with
  | none => (p.addError index .malformedDefine "expected a name after #define", s)
  | some (name, []) => p.setValue s index name 1
  | some (name, text) =>
    match p.evaluate s index text with
    | (some value, p, s) => p.setValue s index name value
    | (none, p, s) => (p, s)

/-- Whether the line of the directive stays, and the pass after it. -/
def direct (p : FilePass) (s : Symbols hash) (index : Nat) (d : Directive) :
    Bool × FilePass × Symbols hash :=
  match d with
  | .if_ condition => (false, p.openBlock s index condition)
  | .else_ => (false, p.otherBranch index, s)
  | .endif => (false, p.closeBlock index, s)
  | .define body => (false, if p.isActive then p.define s index body else (p, s))
  | .includeFile => (p.isActive, p, s)
  | .unknown name =>
    (false, if p.isActive then
        p.addError index .unknownDirective s!"invalid preprocessor command `#{name}`"
      else p, s)

/-- A directive line, given from its `#` on. -/
def directive (p : FilePass) (s : Symbols hash) (index : Nat) (text : List Char) :
    Bool × FilePass × Symbols hash :=
  let statement := Text.Comment.statement text
  let p := if statement.isOpen && p.isActive then { p with openComment := some index } else p
  p.direct s index (.ofStatement statement.text)

/-- A line of code: without its comments in a chosen branch, and else empty. -/
def code (p : FilePass) (index : Nat) (line : Line) : Line × FilePass :=
  if p.isActive then
    let r := Text.Comment.erase line
    (r.text, if r.isOpen then { p with openComment := some index } else p)
  else ([], p)

/-- What the line with the given index becomes, and the pass after it. The end of a block comment
leaves a blank, and no directive follows it on its line. -/
def processLine (p : FilePass) (s : Symbols hash) (index : Nat) (line : Line) :
    Line × FilePass × Symbols hash :=
  match p.openComment with
  | some _ =>
    match Text.Comment.afterEnd? line with
    | none => ([], p, s)
    | some rest =>
      let (line, p) := { p with openComment := none }.code index (' ' :: rest)
      (line, p, s)
  | none =>
    match Directive.start? line with
    | some text =>
      let (stays, p, s) := p.directive s index text
      (if stays then line else [], p, s)
    | none =>
      let (line, p) := p.code index line
      (line, p, s)

def takeReport (p : FilePass) : LineReport × FilePass := (p.report, { p with report := .empty })

/-- The end of the file: blocks and a comment that are still open are faults. -/
def finish (p : FilePass) : LineReport :=
  let unclosed := p.blocks.reverse.map fun b =>
    ⟨b.openedAt, .unclosedIf, "#if without #endif"⟩
  let comment := p.openComment.toList.map fun line =>
    ⟨line, .unclosedComment, "block comment not closed before end of file"⟩
  p.report.addErrors (unclosed ++ comment)

def processFrom (p : FilePass) (s : Symbols hash) (index : Nat) :
    List Line → List Line × FilePass × Symbols hash
  | [] => ([], p, s)
  | line :: lines =>
    let (line, p, s) := p.processLine s index line
    let (lines, p, s) := p.processFrom s (index + 1) lines
    (line :: lines, p, s)

def processLines (s : Symbols hash) (lines : List Line) :
    List Line × LineReport × Symbols hash :=
  let (lines, p, s) := start.processFrom s 0 lines
  (lines, p.finish, s)

end FilePass
end ScriptFront
