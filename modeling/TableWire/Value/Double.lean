/-!
Double-precision numbers as the 64 bits of their IEEE 754 encoding, so that every bit pattern is
kept. Every finite number is a multiple of the least positive one (`Double.signed`), which makes
comparisons, truncation and the cast to an integer exact arithmetic.
-/

namespace TableWire

structure Double : Type where
  bits : UInt64
  deriving DecidableEq, Repr

namespace Double

/-- The weight of the sign bit. -/
def signWeight : Nat := 0x8000000000000000

/-- The weight of the lowest bit of the exponent, next above the 52 bits of the fraction. -/
def exponentWeight : Nat := 0x10000000000000

def negative (d : Double) : Bool := signWeight ≤ d.bits.toNat

/-- The biased exponent, below 2048. -/
def exponent (d : Double) : Nat := d.bits.toNat % signWeight / exponentWeight

def fraction (d : Double) : Nat := d.bits.toNat % exponentWeight

def isFinite (d : Double) : Bool := d.exponent ≠ 2047

def isNaN (d : Double) : Bool := d.exponent = 2047 ∧ d.fraction ≠ 0

def isZero (d : Double) : Bool := d.bits.toNat % signWeight = 0

/-- A normal number has one more bit, set, before its fraction. -/
def significand (d : Double) : Nat :=
  if d.exponent = 0 then d.fraction else d.fraction + exponentWeight

/-- How often the least positive number goes into the magnitude. An infinity counts as more than
every finite number. -/
def units (d : Double) : Nat := d.significand <<< (max d.exponent 1 - 1)

def signed (d : Double) : Int := if d.negative then -(d.units : Int) else d.units

/-- The least positive number is two to the power of minus this. -/
def unitPlaces : Nat := 1074

def unitsInOne : Nat := 1 <<< unitPlaces

/-- The number of so many units, of which the 53 highest bits are kept. -/
def ofUnits (negative : Bool) (units : Nat) : Double :=
  let shift := units.log2 - 52
  let exponent := if units < exponentWeight then 0 else shift + 1
  let fraction := (units >>> shift) % exponentWeight
  ⟨.ofNat (negative.toNat * signWeight + exponent * exponentWeight + fraction)⟩

def zero : Double := ⟨0⟩

def nan : Double := ⟨0x7ff8000000000000⟩

def neg (d : Double) : Double := ⟨d.bits ^^^ 0x8000000000000000⟩

/-- Equality of numbers: not a number differs from itself, and the two zeros are equal. -/
def equal (a b : Double) : Bool :=
  !a.isNaN && !b.isNaN && (a = b || (a.isZero && b.isZero))

/-- Not a number is neither less than a number nor greater. -/
def lt (a b : Double) : Bool := !a.isNaN && !b.isNaN && a.signed < b.signed

def le (a b : Double) : Bool := !a.isNaN && !b.isNaN && a.signed ≤ b.signed

/-- What is left of a number when it is truncated, with its sign. Of a whole number that is the
positive zero, and an infinity leaves no number. -/
def fract (d : Double) : Double :=
  if ¬ d.isFinite then nan
  else if d.units % unitsInOne = 0 then zero
  else ofUnits d.negative (d.units % unitsInOne)

/-- Truncates a number, and takes the nearest integer of 64 bits. Not a number becomes zero. -/
def toInt64 (d : Double) : Int64 :=
  if d.isNaN then 0
  else .ofInt (max Int64.minValue.toInt (min (d.signed.tdiv unitsInOne) Int64.maxValue.toInt))

/-- The number `2 ^ 63`, the first that is too great for an integer of 64 bits. -/
def integerBound : Double := ⟨0x43e0000000000000⟩

end Double

end TableWire
