/-!
# Binary64 values

The doubles a script computes with, as sign and magnitude. A finite magnitude is a significand
times a power of two, so its value is exact in natural numbers.

A positive rational is rounded to the nearest multiple of its unit, and a tie goes to the even
multiple. The unit is the one that leaves fifty-three bits, but never below the smallest.
-/

namespace HandlerScript

-- Powers of natural numbers are those of the core library, whatever a later module imports.
attribute [local instance (high)] instPowNat

/-- A binary64 value: its sign, and below it the eleven bits of the exponent field and the
fifty-two of the fraction field. Two values are equal when all their bits are. -/
structure Binary64 where
  negative : Bool
  magnitude : BitVec 63
  deriving DecidableEq, Repr, Inhabited

namespace Binary64

/-! ## Words -/

def ofBits (word : BitVec 64) : Binary64 := ⟨word.msb, word.setWidth 63⟩

def toBits (x : Binary64) : BitVec 64 := BitVec.cons x.negative x.magnitude

@[simp] theorem ofBits_toBits (x : Binary64) : ofBits x.toBits = x := by
  simp only [ofBits, toBits]
  rw [BitVec.msb_cons, BitVec.setWidth_cons]

@[simp] theorem toBits_ofBits (word : BitVec 64) : (ofBits word).toBits = word :=
  BitVec.cons_msb_setWidth word

/-! ## Classes -/

/-- The magnitude of the infinities; those above it are not numbers. -/
def infiniteMagnitude : Nat := 2047 * 2 ^ (52 : Nat)

def isFinite (x : Binary64) : Bool := x.magnitude.toNat < infiniteMagnitude

def isNaN (x : Binary64) : Bool := infiniteMagnitude < x.magnitude.toNat

def isZero (x : Binary64) : Bool := x.magnitude = 0

/-! ## Value -/

/-- The unit of a finite magnitude is two to this power. An exponent field of 0 has the same unit
as one of 1. -/
def unitExponent (x : Binary64) : Int := max (x.magnitude.toNat / 2 ^ (52 : Nat) : Nat) 1 - 1075

/-- How many units a finite magnitude holds. The leading bit is implicit unless the exponent field
is 0. -/
def significand (x : Binary64) : Nat :=
  let fraction := x.magnitude.toNat % 2 ^ (52 : Nat)
  if x.magnitude.toNat < 2 ^ (52 : Nat) then fraction else 2 ^ (52 : Nat) + fraction

end Binary64

/-! ## Rounding -/

/-- The nearest natural number to `numerator / denominator`; a half goes to the even neighbour. -/
def roundHalfEven (numerator denominator : Nat) : Nat :=
  let quotient := numerator / denominator
  let twice := 2 * (numerator % denominator)
  if twice < denominator then quotient
  else if denominator < twice then quotient + 1
  else quotient + quotient % 2

/-- The greatest `k` with `2 ^ k ≤ numerator / denominator`, both being positive. -/
def floorLog2 (numerator denominator : Nat) : Int :=
  let k : Int := numerator.log2 - denominator.log2
  if denominator * 2 ^ k.toNat ≤ numerator * 2 ^ (-k).toNat then k else k - 1

namespace Binary64

/-- The magnitude nearest to `numerator / denominator`, both being positive; from halfway past the
greatest finite one on it is infinite. A significand that rounds up to `2 ^ 53` carries into the
exponent field. -/
def magnitudeOfRatio (numerator denominator : Nat) : BitVec 63 :=
  let unit : Int := max (-1074) (floorLog2 numerator denominator - 52)
  let units := roundHalfEven (numerator * 2 ^ (-unit).toNat) (denominator * 2 ^ unit.toNat)
  BitVec.ofNat 63 (min ((unit + 1074).toNat * 2 ^ (52 : Nat) + units) infiniteMagnitude)

/-- The magnitude nearest to `digits * 10 ^ exponent`. Far outside the range of the finite
magnitudes the answer is known without computing the power. -/
def magnitudeOfDecimal (digits : Nat) (exponent : Int) : BitVec 63 :=
  if digits = 0 then 0
  else if 309 ≤ exponent then BitVec.ofNat 63 infiniteMagnitude
  else if digits.log2 + exponent < -324 then 0
  else magnitudeOfRatio (digits * 10 ^ exponent.toNat) (10 ^ (-exponent).toNat)

/-- The value nearest to `digits * 10 ^ exponent`, with the given sign. -/
def ofDecimal (negative : Bool) (digits : Nat) (exponent : Int) : Binary64 :=
  ⟨negative, magnitudeOfDecimal digits exponent⟩

end Binary64

/-! ## Number literals -/

def digitsValue (digits : List Char) : Nat :=
  digits.foldl (fun value digit => 10 * value + (digit.toNat - '0'.toNat)) 0

/-- The parts of a number literal: its sign, the digits before and after the point, and the power
of ten that follows the `e`. A part that is not written has no digits, and a power not written
is 0. -/
structure Numeral where
  negative : Bool
  whole : List Char
  fraction : List Char
  power : Int
  deriving DecidableEq, Repr, Inhabited

/-- The correctly rounded value, whatever the number of digits. A zero keeps its sign. -/
def Numeral.value (n : Numeral) : Binary64 :=
  .ofDecimal n.negative (digitsValue (n.whole ++ n.fraction)) (n.power - n.fraction.length)

end HandlerScript
