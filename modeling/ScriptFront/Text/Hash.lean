/-! The hash of a name: a fast function of its bytes that is the same in every run. All arithmetic
is modulo `2^64`. -/
namespace ScriptFront

/-- A function that gives each name a number of 64 bits. -/
abbrev NameHash := String → UInt64

namespace NameHash

def seed0 : UInt64 := 0x243f6a8885a308d3

def seed1 : UInt64 := 0x13198a2e03707344

/-- Keeps a long name with zeros in it from losing its state. -/
def guardWord : UInt64 := 0xa4093822299f31d0

def multiplier : UInt64 := 0xf1357aea2e62a9c5

/-- The exclusive or of the two halves of the product. -/
def mix (x y : UInt64) : UInt64 :=
  let p := x.toNat * y.toNat
  UInt64.ofNat p ^^^ UInt64.ofNat (p / UInt64.size)

/-- The number that bytes write, the lowest one first. -/
def littleEndian (b : List UInt8) : UInt64 := b.foldr (fun x n => n * 256 + x.toUInt64) 0

/-- Takes in blocks of 16 bytes. What is left of the last block is not taken in. -/
def blocks (s0 s1 : UInt64) (b : List UInt8) : UInt64 × UInt64 :=
  if 16 ≤ b.length then
    let x := littleEndian (b.take 8)
    let y := littleEndian ((b.drop 8).take 8)
    blocks s1 (mix (s0 ^^^ x) (guardWord ^^^ y)) (b.drop 16)
  else (s0, s1)
termination_by b.length
decreasing_by simp; omega

def lastBytes (n : Nat) (b : List UInt8) : List UInt8 := b.drop (b.length - n)

/-- The two state words after all bytes: short names go in as a whole, of a long one the last 16
bytes go in once more. -/
def absorb (b : List UInt8) : UInt64 × UInt64 :=
  let n := b.length
  if n > 16 then
    let (s0, s1) := blocks seed0 seed1 (b.take (n - 1))
    (s0 ^^^ littleEndian ((lastBytes 16 b).take 8), s1 ^^^ littleEndian (lastBytes 8 b))
  else if 8 ≤ n then
    (seed0 ^^^ littleEndian (b.take 8), seed1 ^^^ littleEndian (lastBytes 8 b))
  else if 4 ≤ n then
    (seed0 ^^^ littleEndian (b.take 4), seed1 ^^^ littleEndian (lastBytes 4 b))
  else
    match b[0]?, b[n / 2]?, b[n - 1]? with
    | some first, some middle, some last =>
      (seed0 ^^^ first.toUInt64, seed1 ^^^ (last.toUInt64 <<< 8 ||| middle.toUInt64))
    | _, _, _ => (seed0, seed1)

def ofBytes (b : List UInt8) : UInt64 :=
  let (s0, s1) := absorb b
  mix s0 s1 ^^^ UInt64.ofNat b.length

def rotateLeft (x : UInt64) (k : UInt64) : UInt64 := x <<< k ||| x >>> (64 - k)

/-- The hash that names have unless another one is asked for. -/
def standard : NameHash := fun s => rotateLeft (ofBytes s.toUTF8.data.toList * multiplier) 26

end NameHash
end ScriptFront
