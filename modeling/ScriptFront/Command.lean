import ScriptFront.Session

/-! The command line: it loads one script, and reports what is wrong with it. -/
namespace ScriptFront

inductive ArgumentError
  | missingValue (flag : String)
  | option (e : OptionError)
  | unknownOption (flag : String)
  | unexpectedArgument (text : String)
  | missingScript
  deriving DecidableEq, Repr

def ArgumentError.message : ArgumentError → String
  | missingValue flag => s!"missing value for {flag}"
  | option e => e.message
  | unknownOption flag => s!"unknown option `{flag}`"
  | unexpectedArgument text => s!"unexpected argument `{text}`"
  | missingScript => "missing script path"

inductive ValueFlag
  | define | featureLevel | combinedSource | errorLimit
  deriving DecidableEq, Repr

def ValueFlag.ofText? : String → Option ValueFlag
  | "--define" | "-D" => some define
  | "--feature-level" => some featureLevel
  | "--combined-source" => some combinedSource
  | "--error-limit" => some errorLimit
  | _ => none

/-- What the arguments ask for, as far as they are read. -/
structure Request (hash : NameHash) where
  script : Option Path
  options : Options hash
  showTokens : Bool

namespace Request

variable {hash : NameHash}

def empty : Request hash := ⟨none, .default, false⟩

def setFlag (r : Request hash) (flag : ValueFlag) (value : String) :
    Except OptionError (Request hash) := do
  let o := r.options
  match flag with
  | .define =>
    let (name, v) ← Options.definition value
    return { r with options := { o with definitions := (o.definitions.set name v).2 } }
  | .featureLevel =>
    return { r with options := { o with featureLevel := ← Options.featureLevel? value } }
  | .combinedSource => return { r with options := { o with combinedSource := value.toList } }
  | .errorLimit =>
    return { r with options := { o with errorLimit := ← Options.errorLimit? value } }

def readWord (r : Request hash) (arg : String) : Except ArgumentError (Request hash) :=
  if arg = "--consume-pragmas" then
    .ok { r with options := { r.options with consumePragmas := true } }
  else if arg = "--tokens" then .ok { r with showTokens := true }
  else if arg.startsWith "-" then .error (.unknownOption arg)
  else if r.script.isSome then .error (.unexpectedArgument arg)
  else .ok { r with script := some arg.toList }

def readFrom (r : Request hash) : List String → Except ArgumentError (Request hash)
  | [] => .ok r
  | arg :: args =>
    match ValueFlag.ofText? arg with
    | none =>
      match r.readWord arg with
      | .error e => .error e
      | .ok r => r.readFrom args
    | some flag =>
      match args with
      | [] => .error (.missingValue arg)
      | value :: args =>
        match r.setFlag flag value with
        | .error e => .error (.option e)
        | .ok r => r.readFrom args

/-- Reads all arguments. One of them is the script. -/
def read (args : List String) : Except ArgumentError (Path × Request hash) := do
  let r ← empty.readFrom args
  match r.script with
  | some script => return (script, r)
  | none => throw .missingScript

end Request

namespace Command

structure Outcome where
  code : UInt32
  output : List String
  errors : List String
  tree : FileTree

def usage : List String :=
  ["Usage: lemonc <script.lemon> [options]",
   "",
   "Options:",
   "  --define NAME[=VALUE]     Define a preprocessor symbol (default value 1)",
   "  --feature-level N         Initial script feature level",
   "  --combined-source PATH    Write the preprocessed, combined source",
   "  --consume-pragmas         Drop processed global pragmas from the tokens",
   "  --error-limit N           Keep at most N errors (default: all)",
   "  --tokens                  Print the tokens of every line"]

def placeText {hash : NameHash} (s : Session hash) (line : Nat) : String :=
  match s.translate line with
  | .ok (file, n) => s!"{file.name}:{n + 1}"
  | .error _ => s!"line {line + 1}"

/-- The tokens of `count` lines from `line` on, up to a line whose tokens cannot be read. -/
def tokenLines {hash : NameHash} (s : Session hash) (line : Nat) :
    Nat → List String × List String
  | 0 => ([], [])
  | count + 1 =>
    match s.tokens.line line with
    | .error e => ([], ["error: " ++ e.message])
    | .ok ts =>
      let (output, errors) := tokenLines s (line + 1) count
      if ts.isEmpty then (output, errors)
      else (s!"{placeText s line}: {Token.displayLine ts}" :: output, errors)

def execute {hash : NameHash} (tree : FileTree) (script : Path) (r : Request hash) : Outcome :=
  let loaded := (Session.new r.options).load tree script
  let s := loaded.session
  let d := s.script.diagnostics
  let (output, faults) := if r.showTokens then tokenLines s 0 s.tokens.lists.length else ([], [])
  let reports := d.warnings.map (·.display) ++ d.errors.map (·.display)
  match loaded.result with
  | .ok _ => ⟨0, output, faults ++ reports, loaded.tree⟩
  | .error e =>
    let last := s!"error: {e.message} ({d.errorCount} error(s))"
    ⟨1, output, faults ++ reports ++ [last], loaded.tree⟩

def run (tree : FileTree) (args : List String) : Outcome :=
  if args.isEmpty then ⟨1, [], usage, tree⟩
  else
    match (Request.read args : Except ArgumentError (Path × Request NameHash.standard)) with
    | .ok (script, r) => execute tree script r
    | .error e => ⟨1, [], ["error: " ++ e.message, ""] ++ usage, tree⟩

end Command
end ScriptFront
