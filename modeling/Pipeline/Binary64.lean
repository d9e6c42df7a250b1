/-!
# Binary64 numbers

The bit patterns of IEEE 754 double precision, and rounding into them: `ofRatio` takes a quotient of
natural numbers, computed exactly, to the nearest pattern, a tie to the even one.

Below the sign, patterns are ordered as the numbers they stand for, and neighbours in one order are
neighbours in the other. Hence a significand that rounds up past its binade gives the first pattern
of the next one, and past the last binade the pattern of infinity.
-/

namespace Pipeline

/-- The sign is the first bit, then come eleven bits of the exponent and 52 of the fraction. -/
structure Binary64 where
  bits : UInt64
deriving DecidableEq, Repr

namespace Binary64

/-- The pattern of infinity: all bits of the exponent are set, and no other. -/
def infinityBits : Nat := 0x7ff <<< 52

/-- The first pattern past all finite numbers. -/
def infinity : Binary64 := ⟨UInt64.ofNat infinityBits⟩

/-- The first pattern of those that are no number. -/
def nan : Binary64 := ⟨UInt64.ofNat (infinityBits + 1 <<< 51)⟩

/-- The zero without a sign. -/
def zero : Binary64 := ⟨0⟩

/-- The sign is set, also on a zero or on what is no number. -/
def isNegative (x : Binary64) : Bool :=
  1 <<< 63 ≤ x.bits.toNat

/-- Past infinity there are no numbers, whatever the sign. -/
def isNaN (x : Binary64) : Bool :=
  infinityBits < x.bits.toNat % (1 <<< 63)

/-- Sets the sign, which `x` must not have yet. -/
def negate (x : Binary64) : Binary64 :=
  ⟨x.bits ||| UInt64.ofNat (1 <<< 63)⟩

/-- The integer nearest to `n / d`; of two that are equally near, the even one. -/
def roundHalfEven (n d : Nat) : Nat :=
  let q := n / d
  let r := n % d
  if 2 * r < d then q
  else if d < 2 * r then q + 1
  else q + q % 2

/-- The greatest `e` with `2 ^ e ≤ n / d`. -/
def floorLog2 (n d : Nat) : Int :=
  let e : Int := n.log2 - d.log2
  if d <<< e.toNat ≤ n <<< (-e).toNat then e else e - 1

/-- The number nearest to `n / d`, where `d` is not zero. -/
def ofRatio (n d : Nat) : Binary64 :=
  if n = 0 then zero
  else
    let e : Int := max (floorLog2 n d - 52) (-1074)
    let m := roundHalfEven (n <<< (-e).toNat) (d <<< e.toNat)
    let bits := (e + 1074).toNat <<< 52 + m
    ⟨UInt64.ofNat (min bits infinityBits)⟩

end Binary64

end Pipeline
