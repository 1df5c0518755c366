/-! Binary floating-point numbers: their encodings, and the encoding nearest to an exact value.
A significand `m` with exponent `q` stands for `m · 2^q`. -/
namespace ScriptFront

/-- Places of the significand, the leading one included, and bits of the exponent field. -/
structure BinaryFormat where
  precision : Nat
  exponentBits : Nat
  deriving DecidableEq, Repr

inductive BinaryValue
  | finite (negative : Bool) (significand : Nat) (exponent : Int)
  | infinite (negative : Bool)
  | nan
  deriving DecidableEq, Repr

/-- The integer nearest to a quotient; a half goes to the even one. -/
def divRoundEven (num den : Nat) : Nat :=
  let q := num / den
  let r := num % den
  if 2 * r < den then q else if den < 2 * r then q + 1 else q + q % 2

/-- `num / den · 2^k` as a quotient. -/
def scaleByTwo (num den : Nat) (k : Int) : Nat × Nat :=
  match k with
  | .ofNat n => (num * Nat.pow 2 n, den)
  | .negSucc n => (num, den * Nat.pow 2 (n + 1))

namespace BinaryFormat

def single : BinaryFormat := ⟨24, 8⟩

def double : BinaryFormat := ⟨53, 11⟩

variable (f : BinaryFormat)

def fractionBits : Nat := f.precision - 1

def minExponent : Int := -((Nat.pow 2 (f.exponentBits - 1) - 2 + f.fractionBits : Nat) : Int)

/-- The encoding of infinity. The encodings of the finite magnitudes are below it, in their order. -/
def infinity : Nat := (Nat.pow 2 f.exponentBits - 1) * Nat.pow 2 f.fractionBits

def signBit : Nat := Nat.pow 2 (f.fractionBits + f.exponentBits)

def decode (bits : Nat) : BinaryValue :=
  let negative := bits / f.signBit % 2 == 1
  let magnitude := bits % f.signBit
  let field := magnitude / Nat.pow 2 f.fractionBits
  let fraction := magnitude % Nat.pow 2 f.fractionBits
  if magnitude = f.infinity then .infinite negative
  else if f.infinity < magnitude then .nan
  else if field = 0 then .finite negative fraction f.minExponent
  else .finite negative (Nat.pow 2 f.fractionBits + fraction) (f.minExponent + (field - 1 : Nat))

/-- The exponent of the last place of a number with `2^k ≤ x < 2^(k+1)`. -/
def unitExponent (k : Int) : Int := max (k - f.fractionBits) f.minExponent

/-- The magnitude nearest to `num / den`. An encoding is the significand plus the steps of the
exponent, so a significand that is rounded up to the next power of two needs no care. -/
def roundQuotient (num den : Nat) : Nat :=
  if num = 0 then 0
  else
    let k : Int := num.log2 - den.log2
    let (n, d) := scaleByTwo num den (-k)
    let q := f.unitExponent (if n < d then k - 1 else k)
    let (n, d) := scaleByTwo num den (-q)
    min f.infinity ((q - f.minExponent).toNat * Nat.pow 2 f.fractionBits + divRoundEven n d)

/-- The magnitude nearest to `digits · 10^exponent`. A value with so large or so small an exponent
that every nearby number is infinite or zero is not computed. -/
def ofDecimal (digits : Nat) (exponent : Int) : Nat :=
  if digits = 0 then 0
  else
    let places : Int := exponent + (Nat.toDigits 10 digits).length
    if Nat.pow 2 f.exponentBits ≤ 3 * (places - 1) then f.infinity
    else if 3 * places < f.minExponent - 1 then 0
    else
      match exponent with
      | .ofNat e => f.roundQuotient (digits * Nat.pow 10 e) 1
      | .negSucc e => f.roundQuotient digits (Nat.pow 10 (e + 1))

def ofBinary (negative : Bool) (significand : Nat) (exponent : Int) : Nat :=
  let (n, d) := scaleByTwo significand 1 exponent
  (if negative then f.signBit else 0) + f.roundQuotient n d

def quietNaN : Nat := f.infinity + Nat.pow 2 (f.fractionBits - 1)

def encode : BinaryValue → Nat
  | .finite negative m q => f.ofBinary negative m q
  | .infinite negative => (if negative then f.signBit else 0) + f.infinity
  | .nan => f.quietNaN

def isNaN (bits : Nat) : Bool := f.infinity < bits % f.signBit

def ofInt (n : Int) : Nat := f.ofBinary (n < 0) n.natAbs 0

end BinaryFormat

namespace BinaryValue

def truncate (negative : Bool) (significand : Nat) (exponent : Int) : Int :=
  let (n, d) := scaleByTwo significand 1 exponent
  if negative then -((n / d : Nat) : Int) else (n / d : Nat)

/-- The value as an integer between `low` and `high`: its fraction is dropped, a value beyond an end
gives that end, and what is no number gives 0. -/
def toIntWithin (low high : Int) : BinaryValue → Int
  | finite negative m q => max low (min high (truncate negative m q))
  | infinite true => low
  | infinite false => high
  | nan => 0

end BinaryValue
end ScriptFront
