import ScriptFront.Number.Binary

/-! The shortest decimal that reads back as a given binary number, and its text. -/
namespace ScriptFront

/-- `digits · 10^exponent`. -/
structure Decimal where
  digits : Nat
  exponent : Int
  deriving DecidableEq, Repr

/-- A number between the two neighbours of a binary number: the value itself and the ends of the
interval of reals that are rounded to it, in units of `2^exponent`. -/
structure RoundingInterval where
  low : Nat
  value : Nat
  high : Nat
  exponent : Int
  /-- The ends themselves are rounded to the value. -/
  closed : Bool
  deriving DecidableEq, Repr

namespace RoundingInterval

/-- Below a power of two the numbers are twice as close. -/
def ofFinite (f : BinaryFormat) (significand : Nat) (exponent : Int) : RoundingInterval :=
  let m := 4 * significand
  let gap := if significand = Nat.pow 2 f.fractionBits ∧ f.minExponent < exponent then 1 else 2
  ⟨m - gap, m, m + 2, exponent - 2, significand % 2 == 0⟩

private def above (i : RoundingInterval) (a b : Nat) : Bool :=
  if i.closed then i.low * b ≤ a else i.low * b < a

private def below (i : RoundingInterval) (a b : Nat) : Bool :=
  if i.closed then a ≤ i.high * b else a < i.high * b

/-- Whether the real `a / b`, in units of the interval, is rounded to the value. -/
def contains (i : RoundingInterval) (a b : Nat) : Bool := i.above a b && i.below a b

/-- Units of `10^k` in units of the interval, as a quotient. -/
def grid (i : RoundingInterval) (k : Int) : Nat × Nat :=
  match k with
  | .ofNat n => scaleByTwo (Nat.pow 10 n) 1 (-i.exponent)
  | .negSucc n => scaleByTwo 1 (Nat.pow 10 (n + 1)) (-i.exponent)

/-- The decimal on the grid of `10^k` that is rounded to the value: of two the nearer one, of two
equally near the upper one. -/
def onGrid? (i : RoundingInterval) (k : Int) : Option Decimal :=
  let (num, den) := i.grid k
  let d := i.value * den / num
  let lower := i.contains (d * num) den
  let upper := i.contains ((d + 1) * num) den
  if lower && upper then
    some ⟨if (2 * d + 1) * num ≤ 2 * i.value * den then d + 1 else d, k⟩
  else if lower then some ⟨d, k⟩
  else if upper then some ⟨d + 1, k⟩
  else none

/-- Looks on finer and finer grids, at most `fuel` of them. -/
def search (i : RoundingInterval) : Nat → Int → Decimal
  | 0, k => ⟨0, k⟩
  | fuel + 1, k => (i.onGrid? k).getD (search i fuel (k - 1))

end RoundingInterval

/-- Places of decimals that tell all numbers of a format apart. -/
def BinaryFormat.decimalPlaces (f : BinaryFormat) : Nat := f.precision * 30103 / 100000 + 2

/-- The exponent `k` with `10^k ≤ num / den < 10^(k+1)`, from a guess that is at most one too
large. -/
def decimalExponent (num den : Nat) : Int :=
  let k : Int := (Nat.toDigits 10 num).length - (Nat.toDigits 10 den).length
  let less : Bool :=
    match k with
    | .ofNat n => num < den * Nat.pow 10 n
    | .negSucc n => num * Nat.pow 10 (n + 1) < den
  if less then k - 1 else k

/-- The decimal of fewest digits that reads back as a positive number. -/
def Decimal.shortest (f : BinaryFormat) (significand : Nat) (exponent : Int) : Decimal :=
  let (num, den) := scaleByTwo significand 1 exponent
  (RoundingInterval.ofFinite f significand exponent).search f.decimalPlaces
    (decimalExponent num den)

namespace Decimal

/-- The text without an exponent and without a fraction that is zero. -/
def positional (d : Decimal) : List Char :=
  match d.exponent with
  | .ofNat n => Nat.toDigits 10 d.digits ++ List.replicate n '0'
  | .negSucc n =>
    let ds := Nat.toDigits 10 d.digits
    let ds := List.replicate (n + 2 - ds.length) '0' ++ ds
    let fraction := (((ds.drop (ds.length - (n + 1))).reverse.dropWhile (· == '0')).reverse)
    let whole := ds.take (ds.length - (n + 1))
    if fraction.isEmpty then whole else whole ++ '.' :: fraction

end Decimal

def BinaryFormat.text (f : BinaryFormat) (bits : Nat) : String :=
  let sign (negative : Bool) (s : List Char) := String.ofList (if negative then '-' :: s else s)
  match f.decode bits with
  | .nan => "NaN"
  | .infinite negative => sign negative "inf".toList
  | .finite negative 0 _ => sign negative ['0']
  | .finite negative m q => sign negative (Decimal.shortest f m q).positional

end ScriptFront
