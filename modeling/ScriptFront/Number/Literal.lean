import ScriptFront.Number.Binary
import ScriptFront.Number.Integer
import ScriptFront.Text.Class

/-! Numeric literals: where one ends, and its value. -/
namespace ScriptFront

/-- A number as source text gives it. The floating kinds are held by their encodings. -/
inductive Number
  | integer (value : UInt64)
  /-- Written with the suffix `f`. -/
  | float (bits : UInt32)
  | double (bits : UInt64)
  deriving DecidableEq, Repr

def splitAtFirst (p : Char → Bool) (s : List Char) : List Char × Option (List Char) :=
  (s.takeWhile (!p ·), (s.dropWhile (!p ·)).tail?)

namespace Number

/-- A floating literal in parts: `whole.fraction` times ten to `exponent`. -/
structure Parts where
  whole : List Char
  fraction : List Char
  negative : Bool
  exponent : List Char
  deriving DecidableEq, Repr

def isDecimal (s : List Char) : Bool := s.all fun c => (Integer.decimalDigit? c).isSome

def ofDigits (s : List Char) : Nat :=
  s.foldl (fun n c => 10 * n + (Integer.decimalDigit? c).getD 0) 0

def Parts.isValid (p : Parts) : Bool :=
  isDecimal p.whole && isDecimal p.fraction && isDecimal p.exponent

/-- The exponent of the last digit of the fraction. -/
def Parts.lastExponent (p : Parts) : Int :=
  (if p.negative then -(ofDigits p.exponent : Int) else ofDigits p.exponent) - p.fraction.length

def Parts.double (p : Parts) : UInt64 :=
  .ofNat (BinaryFormat.double.ofDecimal (ofDigits (p.whole ++ p.fraction)) p.lastExponent)

/-- Splits a floating literal without its suffix. A fraction or an exponent is present, and an
exponent has digits. -/
def Parts.split? (body : List Char) : Option Parts :=
  match splitAtFirst (fun c => c == 'e' || c == 'E') body with
  | (mantissa, none) =>
    match splitAtFirst (· == '.') mantissa with
    | (_, none) => none
    | (whole, some fraction) => some ⟨whole, fraction, false, []⟩
  | (mantissa, some exponent) =>
    let (whole, fraction) := splitAtFirst (· == '.') mantissa
    match exponent with
    | [] => none
    | ['-'] => none
    | '-' :: digits => some ⟨whole, fraction.getD [], true, digits⟩
    | digits => some ⟨whole, fraction.getD [], false, digits⟩

/-- A single number is the double nearest to the text, rounded once more. -/
def singleOfDouble (bits : UInt64) : UInt32 :=
  .ofNat (BinaryFormat.single.encode (BinaryFormat.double.decode bits.toNat))

/-- The value of a floating literal such as `2.5`, `2e5`, `2.1e-3` or `1.5f`. A single character is
none. -/
def parseFloating (s : List Char) : Except NumberError Number :=
  if s.length < 2 then .error .invalidDigit
  else
    let isFloat := s.getLast? == some 'f'
    match Parts.split? (if isFloat then s.dropLast else s) with
    | none => .error .invalidDigit
    | some p =>
      if p.isValid then .ok (if isFloat then float (singleOfDouble p.double) else double p.double)
      else .error .invalidDigit

/-- A literal as it is written, its value, and the rest of the text. -/
structure Scan where
  raw : List Char
  value : Except NumberError Number
  rest : List Char

def spanIdentifier (s : List Char) : List Char × List Char :=
  (s.takeWhile CharClass.isIdentifier, s.dropWhile CharClass.isIdentifier)

def endsInExponent (raw : List Char) : Bool :=
  2 ≤ raw.length && (raw.getLast? == some 'e' || raw.getLast? == some 'E')

/-- Takes the literal at the start of `s`: all the characters of an identifier that follow, so that
`12abc` is one bad literal, and after an exponent mark also a `-` and what follows it. -/
def scan (s : List Char) : Scan :=
  let (raw, rest) := spanIdentifier s
  match raw, Integer.parse raw with
  | '0' :: 'x' :: _ :: _, value => ⟨raw, value.map integer, rest⟩
  | raw, .ok value => ⟨raw, .ok (integer value), rest⟩
  | raw, .error .overflow => ⟨raw, .error .overflow, rest⟩
  | raw, .error .invalidDigit =>
    match rest with
    | '-' :: r =>
      if endsInExponent raw then
        let (exponent, rest) := spanIdentifier r
        let raw := raw ++ '-' :: exponent
        ⟨raw, parseFloating raw, rest⟩
      else ⟨raw, parseFloating raw, rest⟩
    | _ => ⟨raw, parseFloating raw, rest⟩

theorem raw_append_rest_scan (s : List Char) : (scan s).raw ++ (scan s).rest = s := by
  simp only [scan, spanIdentifier]
  split
  · simp [List.takeWhile_append_dropWhile]
  · simp [List.takeWhile_append_dropWhile]
  · simp [List.takeWhile_append_dropWhile]
  · split
    · rename_i r h
      split
      · simp only [List.append_assoc, List.cons_append, List.takeWhile_append_dropWhile, ← h]
      · simp [List.takeWhile_append_dropWhile]
    · simp [List.takeWhile_append_dropWhile]

theorem takeWhile_append_scan (s : List Char) :
    ∃ more, (scan s).raw = s.takeWhile CharClass.isIdentifier ++ more := by
  simp only [scan, spanIdentifier]
  split
  · exact ⟨[], by simp⟩
  · exact ⟨[], by simp⟩
  · exact ⟨[], by simp⟩
  · split
    · split
      · exact ⟨_, rfl⟩
      · exact ⟨[], by simp⟩
    · exact ⟨[], by simp⟩

def payload : Number → UInt64
  | integer value => value
  | float bits => bits.toUInt64
  | double bits => bits

end Number
end ScriptFront
