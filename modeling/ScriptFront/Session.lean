import ScriptFront.Options
import ScriptFront.Pragma
import ScriptFront.Script
import ScriptFront.Token.Lines
import ScriptFront.Types.Cast

/-! A session: it loads scripts one after the other, preprocesses and tokenizes them and collects all
that is wrong with them. Names and types stay from script to script, all else begins anew. -/
namespace ScriptFront

def maxFeatureLevel : Nat := 2

structure Session (hash : NameHash) where
  options : Options hash
  types : Catalogue hash
  script : Script hash
  tokens : TokenLines
  featureLevel : Nat

inductive LoadError
  | failed (p : ErrorProof)
  | pool (e : PoolError)
  deriving DecidableEq, Repr

def LoadError.message : LoadError → String
  | failed p => s!"script failed to compile: {p.message}"
  | pool e => e.message

namespace Session

variable {hash : NameHash}

def new (options : Options hash) : Session hash where
  options
  types := .new
  script := .start ⟨Catalogue.enterNames .new, options.definitions⟩ options.errorLimit
  tokens := .empty
  featureLevel := options.featureLevel

def reset (s : Session hash) : Except PoolError Unit × Session hash :=
  match s.tokens.clear with
  | (.error e, tokens) => (.error e, { s with tokens })
  | (.ok _, tokens) =>
    let symbols : Symbols hash := ⟨s.script.symbols.names, s.options.definitions⟩
    (.ok (), { s with
      script := .start symbols s.options.errorLimit
      tokens
      featureLevel := s.options.featureLevel })

def writeCombined (s : Session hash) (tree : FileTree) : Session hash × FileTree :=
  match s.options.combinedSource with
  | none => (s, tree)
  | some path =>
    match tree.write path s.script.text.toUTF8 with
    | .ok tree => (s, tree)
    | .error e =>
      let name := String.ofList path
      let message := s!"failed to write combined source to '{name}': {e.message}"
      ({ s with script := s.script.addLoadError .unwritableFile message none }, tree)

def tokenizeLines (s : Session hash) : Except PoolError Unit × Session hash :=
  let r := s.tokens.addLines s.script.symbols.names 0 s.script.lines.toList
  let script := { s.script with symbols := { s.script.symbols with names := r.names } }
  match r.result with
  | .error e => (.error e, { s with script, tokens := r.tokens })
  | .ok _ =>
    let add (script : Script hash) (e : LineError) : Script hash :=
      script.addErrorAt (.new e.code e.message) e.line
    (.ok (), { s with script := r.errors.foldl add script, tokens := r.tokens })

/-- The global pragmas among the tokens of a line, with their positions. -/
def globalPragmas (ts : List Token) : List (Nat × GlobalPragma) :=
  ts.zipIdx.filterMap fun (t, i) =>
    match t with
    | .pragma text => (GlobalPragma.ofText? text.toList).map fun p => (i, p)
    | _ => none

/-- What a pragma in a combined line does. A level above the highest one is an error. -/
def applyPragma (line : Nat) (s : Session hash) : GlobalPragma → Session hash
  | .featureLevel level =>
    if level = 0 then s
    else
      let n := level.toNat
      let script :=
        if maxFeatureLevel < n then
          let cause := s!"script uses feature level {n}, but the highest supported level is"
          let e := ErrorRecord.new .unsupportedFeatureLevel s!"{cause} {maxFeatureLevel}"
          s.script.addErrorAt (e.withData level (.ofNat maxFeatureLevel)) line
        else s.script
      { s with script, featureLevel := min n (UInt32.size - 1) }

def consume (s : Session hash) (line : Nat) (positions : List Nat) :
    Except PoolError Unit × Session hash :=
  match s.tokens.lists[line]? with
  | none => (.ok (), s)
  | some l =>
    let r := l.eraseIndices s.tokens.pool positions
    (r.result, { s with tokens := ⟨r.pool, s.tokens.lists.set line r.list⟩ })

def applyLine (s : Session hash) (line : Nat) : Except PoolError Unit × Session hash :=
  match s.tokens.line line with
  | .error e => (.error e, s)
  | .ok ts =>
    let found := globalPragmas ts
    let s := (found.map (·.2)).foldl (applyPragma line) s
    if found.isEmpty ∨ !s.options.consumePragmas then (.ok (), s)
    else s.consume line (found.map (·.1))

def applyLines (s : Session hash) (line : Nat) : Nat → Except PoolError Unit × Session hash
  | 0 => (.ok (), s)
  | count + 1 =>
    match s.applyLine line with
    | (.error e, s) => (.error e, s)
    | (.ok _, s) => s.applyLines (line + 1) count

/-- Tokenizes the script that was read, and lets its pragmas take effect. -/
def analyse (s : Session hash) : Except PoolError Unit × Session hash :=
  match s.tokenizeLines with
  | (.error e, s) => (.error e, s)
  | (.ok _, s) => s.applyLines 0 s.tokens.lists.length

/-- What `load` answers, the session and the files after it. -/
structure Loaded (hash : NameHash) where
  result : Except LoadError Unit
  session : Session hash
  tree : FileTree

/-- Loads the script at a path. Nothing that is wrong with it keeps the rest from being loaded. -/
def load (s : Session hash) (tree : FileTree) (path : Path) : Loaded hash :=
  match s.reset with
  | (.error e, s) => ⟨.error (.pool e), s, tree⟩
  | (.ok _, s) =>
    let (s, written) := { s with script := s.script.read tree path }.writeCombined tree
    match s.analyse with
    | (.error e, s) => ⟨.error (.pool e), s, written⟩
    | (.ok _, s) =>
      match s.script.diagnostics.errorProof? with
      | some p => ⟨.error (.failed p), s, written⟩
      | none => ⟨.ok (), s, written⟩

/-- The file and the line of it, from 0 on, that a combined line comes from. -/
def translate (s : Session hash) (line : Nat) : Except LineMapError (SourceFile × Nat) :=
  s.script.lineMap.translate (min line maxLine)

def castRules (s : Session hash) : CastRules hash := ⟨s.types, s.featureLevel⟩

def arrayOf (s : Session hash) (element : TypeId) (length : Nat) :
    Except TypeError TypeId × Session hash :=
  let symbols := s.script.symbols
  let (result, tables) := TypeTables.arrayOf ⟨s.types, symbols.names⟩ element length
  let script := { s.script with symbols := { symbols with names := tables.names } }
  (result, { s with types := tables.types, script })

end Session
end ScriptFront
