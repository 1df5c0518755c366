import ScriptFront.Diagnostic.Record

/-! Errors and warnings in the order in which they were reported. A limit bounds how many errors are
kept, and a warning is kept once with all its places. -/
namespace ScriptFront

/-- Knowing that there is an error. -/
structure ErrorProof where
  deriving DecidableEq, Repr

def ErrorProof.message (_ : ErrorProof) : String := "error(s) emitted"

/-- The errors that were kept and the number of the others. No limit is written 0. The index leads
from the code and the message of a warning to the place of its record. -/
structure Diagnostics where
  limit : Nat
  errors : List ErrorRecord
  suppressed : Nat
  warnings : List WarningRecord
  index : List ((WarningCode × String) × Nat)
  deriving DecidableEq, Repr

namespace Diagnostics

def new (limit : Nat) : Diagnostics := ⟨limit, [], 0, [], []⟩

def limitReached (d : Diagnostics) : Bool := 0 < d.limit && d.limit ≤ d.errors.length

def addError (d : Diagnostics) (e : ErrorRecord) : Diagnostics :=
  if d.limitReached then { d with suppressed := d.suppressed + 1 }
  else { d with errors := d.errors ++ [e] }

def addErrors (d : Diagnostics) (es : List ErrorRecord) : Diagnostics := es.foldl addError d

/-- Adds a place to the record of a warning that was reported before, or a new record at the end. -/
def addWarning (d : Diagnostics) (code : WarningCode) (message : String) (site : WarningSite) :
    Diagnostics :=
  match d.index.lookup (code, message) with
  | some i => { d with warnings := d.warnings.modify i (·.addSite site) }
  | none =>
    { d with
      index := d.index ++ [((code, message), d.warnings.length)]
      warnings := d.warnings ++ [⟨code, message, [site]⟩] }

@[simp] theorem errors_addWarning (d : Diagnostics) (code : WarningCode) (message : String)
    (site : WarningSite) : (d.addWarning code message site).errors = d.errors := by
  unfold addWarning
  split <;> rfl

def errorCount (d : Diagnostics) : Nat := d.errors.length + d.suppressed

@[simp] theorem errorCount_addError (d : Diagnostics) (e : ErrorRecord) :
    (d.addError e).errorCount = d.errorCount + 1 := by
  unfold addError errorCount
  split
  · rfl
  · simp only [List.length_append, List.length_singleton]
    omega

@[simp] theorem errorCount_addErrors (d : Diagnostics) (es : List ErrorRecord) :
    (d.addErrors es).errorCount = d.errorCount + es.length := by
  induction es generalizing d with
  | nil => rfl
  | cons e es ih =>
    have := ih (d.addError e)
    simp only [addErrors, List.foldl_cons, errorCount_addError] at this ⊢
    simp [this, Nat.add_assoc, Nat.add_comm]

def errorProof? (d : Diagnostics) : Option ErrorProof :=
  if 0 < d.errorCount then some ⟨⟩ else none

def isEmpty (d : Diagnostics) : Bool := d.errorCount == 0 && d.warnings.isEmpty

def clear (d : Diagnostics) : Diagnostics :=
  { d with errors := [], suppressed := 0, warnings := [], index := [] }

def addRecord (d : Diagnostics) (w : WarningRecord) : Diagnostics :=
  w.sites.foldl (fun d site => d.addWarning w.code w.message site) d

/-- Moves all reports of `other` to the end of `d`: the errors, the number of those that were not
kept, and the warnings, each of which is reported again for each of its places. -/
def append (d other : Diagnostics) : Diagnostics × Diagnostics :=
  let (d, other) := (d.addErrors other.errors, { other with errors := [] })
  let (d, other) :=
    ({ d with suppressed := d.suppressed + other.suppressed }, { other with suppressed := 0 })
  let (d, other) := (other.warnings.foldl addRecord d, { other with warnings := [] })
  (d, { other with index := [] })

end Diagnostics
end ScriptFront
