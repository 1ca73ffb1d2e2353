import HandlerScript.Number.Binary64

/-!
# How a number is written

A finite magnitude has an exact decimal expansion. It is cut after one digit, after two, and so
on; the first cut from which one of its two neighbours on that grid rounds back to the magnitude
gives the digits. Of two such neighbours the nearer is taken.

The digits are laid out around a point. The formats differ in where the exponent notation
begins, in whether whole numbers keep a `.0`, and in where ties go.
-/

namespace HandlerScript

-- Powers of natural numbers are those of the core library, whatever a later module imports.
attribute [local instance (high)] instPowNat

/-- `digits * 10 ^ exponent`. -/
structure Decimal where
  digits : Nat
  exponent : Int
  deriving DecidableEq, Repr, Inhabited

inductive Tie where
  | away
  | even
  deriving DecidableEq, Repr

/-- Whether the neighbour above `lower` is the nearer one, when `rest / size` of a step is left
above `lower`. -/
def Tie.roundsUp (tie : Tie) (lower rest size : Nat) : Bool :=
  size < 2 * rest || (2 * rest == size && (tie == .away || lower % 2 == 1))

/-- The number of decimal digits; 0 has one. -/
def digitCount (n : Nat) : Nat := (Nat.toDigits 10 n).length

namespace Binary64

def exactDecimal (x : Binary64) : Decimal :=
  let unit := x.unitExponent
  ⟨x.significand * 2 ^ unit.toNat * 5 ^ (-unit).toNat, min unit 0⟩

end Binary64

namespace Decimal

def ReadsBack (d : Decimal) (magnitude : BitVec 63) : Prop :=
  Binary64.magnitudeOfDecimal d.digits d.exponent = magnitude

instance (d : Decimal) (magnitude : BitVec 63) : Decidable (d.ReadsBack magnitude) :=
  inferInstanceAs (Decidable (_ = _))

/-- The decimal that remains when the last `cut` digits are dropped, rounded down. -/
def below (d : Decimal) (cut : Nat) : Decimal := ⟨d.digits / 10 ^ cut, d.exponent + cut⟩

/-- The next decimal above `below` on the same grid. -/
def above (d : Decimal) (cut : Nat) : Decimal := ⟨d.digits / 10 ^ cut + 1, d.exponent + cut⟩

/-- The neighbour without the last `cut` digits that reads back, the nearer if both do. -/
def neighbour? (tie : Tie) (magnitude : BitVec 63) (d : Decimal) (cut : Nat) : Option Decimal :=
  let below := d.below cut
  let above := d.above cut
  if below.ReadsBack magnitude then
    if above.ReadsBack magnitude ∧ tie.roundsUp below.digits (d.digits % 10 ^ cut) (10 ^ cut) then
      some above
    else some below
  else if above.ReadsBack magnitude then some above
  else none

/-- Drops as many of the last `cut` digits as reading back allows. -/
def shorten (tie : Tie) (magnitude : BitVec 63) (d : Decimal) : (cut : Nat) → Decimal
  | 0 => d
  | cut + 1 => (d.neighbour? tie magnitude (cut + 1)).getD (d.shorten tie magnitude cut)

end Decimal

def Binary64.shortest (tie : Tie) (x : Binary64) : Decimal :=
  let exact := x.exactDecimal
  exact.shorten tie x.magnitude (digitCount exact.digits - 1)

/-! ## Layout -/

structure NumberFormat where
  /-- Where a tie between two shortest decimals goes. -/
  tie : Tie
  /-- Which powers of ten of the leading digit are written without an exponent. -/
  positional : Int → Bool
  /-- What follows a whole number written without an exponent. -/
  wholeEnd : List Char

def Decimal.significant (d : Decimal) : List Char :=
  ((Nat.toDigits 10 d.digits).reverse.dropWhile (· = '0')).reverse

/-- How many places before the point the first digit stands; 0 when it stands right after it. -/
def Decimal.point (d : Decimal) : Int := digitCount d.digits + d.exponent

namespace NumberFormat

/-- Digits around a point; zeros fill the places that have no digit. -/
def placed (wholeEnd digits : List Char) (point : Int) : List Char :=
  if point ≤ 0 then
    '0' :: '.' :: (List.replicate (-point).toNat '0' ++ digits)
  else if digits.length ≤ point then
    digits ++ List.replicate (point.toNat - digits.length) '0' ++ wholeEnd
  else
    digits.take point.toNat ++ '.' :: digits.drop point.toNat

/-- One digit before the point, the others after it, and the power of ten with its sign. -/
def scientific (digits : List Char) (power : Int) : List Char :=
  let mantissa := match digits with
    | first :: second :: others => first :: '.' :: second :: others
    | few => few
  mantissa ++ 'e' :: (if power < 0 then '-' else '+') :: Nat.toDigits 10 power.natAbs

def unsigned (format : NumberFormat) (x : Binary64) : List Char :=
  if x.isZero then '0' :: format.wholeEnd
  else
    let decimal := x.shortest format.tie
    let point := decimal.point
    if format.positional (point - 1) then placed format.wholeEnd decimal.significant point
    else scientific decimal.significant (point - 1)

/-- The text of a finite value. A zero keeps its sign. -/
def write (format : NumberFormat) (x : Binary64) : List Char :=
  if x.negative then '-' :: format.unsigned x else format.unsigned x

end NumberFormat

end HandlerScript
