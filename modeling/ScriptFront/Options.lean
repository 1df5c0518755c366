import ScriptFront.Definitions
import ScriptFront.Files.Path
import ScriptFront.Number.Integer
import ScriptFront.Types.Id

/-! What can be chosen for a session, and the texts that choose it. -/
namespace ScriptFront

structure Options (hash : NameHash) where
  definitions : Definitions hash
  featureLevel : Nat
  /-- Pragmas that took effect are taken out of the tokens. -/
  consumePragmas : Bool
  combinedSource : Option Path
  /-- How many errors are kept, where 0 is all. -/
  errorLimit : Nat
  /-- The type of addresses outside of the script. -/
  addressType : TypeId

def Options.default {hash : NameHash} : Options hash where
  definitions := .empty
  featureLevel := 1
  consumePragmas := false
  combinedSource := none
  errorLimit := 0
  addressType := .u64

/-- A text that chooses nothing. -/
inductive OptionError
  | invalidDefinition (text : String)
  | invalidFeatureLevel (text : String)
  | invalidErrorLimit (text : String)
  deriving DecidableEq, Repr

def OptionError.message : OptionError → String
  | invalidDefinition text => s!"invalid definition `{text}`, expected NAME or NAME=VALUE"
  | invalidFeatureLevel text => s!"invalid feature level `{text}`"
  | invalidErrorLimit text => s!"invalid error limit `{text}`"

namespace Options

/-- A name is made of ASCII letters, digits and underscores, and begins with no digit. -/
def isName (s : List Char) : Bool :=
  s.all (fun c => c.isAlphanum || c == '_') && s.head?.any (!·.isDigit)

def number? (s : List Char) : Option Int64 :=
  let (negative, digits) := match s with
    | '-' :: s => (true, s)
    | s => (false, s)
  match Integer.parse digits with
  | .error _ => none
  | .ok n =>
    if 2 * n.toNat < UInt64.size then
      some (.ofInt (if negative then -(n.toNat : Int) else n.toNat))
    else none

/-- Reads `NAME=VALUE`, or `NAME` for the value 1. -/
def definition (text : String) : Except OptionError (String × Int64) :=
  let s := text.toList
  let name := Text.trim (s.takeWhile (· != '='))
  let value := match s.dropWhile (· != '=') with
    | [] => some 1
    | _ :: v => number? (Text.trim v)
  match isName name, value with
  | true, some v => .ok (String.ofList name, v)
  | _, _ => .error (.invalidDefinition text)

/-- Decimal digits, with a plus sign before them or not, of a number up to `limit`. -/
def natural? (limit : Nat) (s : List Char) : Option Nat :=
  let digits := match s with
    | '+' :: s => s
    | s => s
  if digits.isEmpty ∨ !digits.all Char.isDigit then none
  else
    let n := digits.foldl (fun n c => 10 * n + (c.toNat - '0'.toNat)) 0
    if n ≤ limit then some n else none

def featureLevel? (text : String) : Except OptionError Nat :=
  match natural? (UInt32.size - 1) (Text.trim text.toList) with
  | some n => .ok n
  | none => .error (.invalidFeatureLevel text)

def errorLimit? (text : String) : Except OptionError Nat :=
  match natural? (UInt64.size - 1) text.toList with
  | some n => .ok n
  | none => .error (.invalidErrorLimit text)

end Options
end ScriptFront
