import NestedStyles.Number.Arithmetic
import NestedStyles.Number.Text

/-!
# Numerals of a JSON text

An integer is delivered as one if 64 bits hold it. Any other numeral is read fast rather than to the
nearest double: its leading digits make an integer of 64 bits, this integer is rounded to a double,
and the double is multiplied with a power of ten, or divided by one, that is a double as well. So up
to three roundings come together, and a numeral just below the largest double may be out of range
(`Numeral.read?`).
-/

namespace NestedStyles.Json

/-- A number as it is delivered: an integer of 64 bits, or a double that is not infinite. -/
inductive Numeric where
  | unsigned (n : UInt64)
  | signed (n : Int64)
  | float (n : Number) (hn : n.isFinite = true)
deriving DecidableEq

/-- A number as it is written. -/
structure Numeral where
  negative : Bool
  /-- The digits before the point. -/
  whole : List Char
  /-- The digits behind the point, none if there is no point. -/
  fraction : List Char
  exponent : Option Int

/-- The number that an integer is rounded to, or the double itself. -/
def Numeric.number : Numeric → Number
  | .unsigned n => .ofInt n.toNat
  | .signed n => .ofInt n.toInt
  | .float n _ => n

/-- A double, unless it is out of range. -/
def Numeric.ofNumber? (n : Number) : Option Numeric :=
  if hn : n.isFinite = true then some (.float n hn) else none

namespace Numeral

/-- Puts digits behind an integer as long as 64 bits hold it, and counts those that are left. -/
def gather : Nat → List Char → Nat × Nat
  | significand, [] => (significand, 0)
  | significand, digit :: rest =>
    let next := 10 * significand + (digit.toNat - '0'.toNat)
    if next < Nat.pow 2 64 then gather next rest else (significand, rest.length + 1)

/-- The largest power of ten that is a double. -/
def largestPower : Nat := 308

/-- The double nearest to a power of ten. -/
def tenTo (power : Nat) : Number := .ofRatio false (Nat.pow 10 power) 1

/-- The double times a power of ten, in one step if that power is a double. -/
def scaled (x : Number) (exponent : Int) : Number :=
  if exponent.natAbs ≤ largestPower then
    if 0 ≤ exponent then x.mul (tenTo exponent.natAbs) else x.div (tenTo exponent.natAbs)
  else if x.isZero then x
  else if 0 ≤ exponent then .infinite false
  else scaled (x.div (tenTo largestPower)) (exponent + largestPower)
termination_by exponent.natAbs
decreasing_by
  simp only [largestPower] at *
  omega

/-- The numeral has neither a point nor an exponent. -/
def isIntegral (numeral : Numeral) : Bool := numeral.fraction.isEmpty && numeral.exponent.isNone

/-- The sign of the numeral on a number without one. -/
def signed (numeral : Numeral) (n : Number) : Number := if numeral.negative then n.neg else n

/-- The integer of the numeral with its sign. Zero with a sign is a double, and so is a negative
integer that 64 bits do not hold. -/
def integer? (numeral : Numeral) (significand : Nat) : Option Numeric :=
  if !numeral.negative then some (.unsigned (.ofNat significand))
  else if 0 < significand ∧ significand ≤ Nat.pow 2 63 then
    some (.signed (.ofInt (-(significand : Int))))
  else Numeric.ofNumber? (numeral.signed (.ofInt significand))

/-- The number of a numeral, unless it is out of range. A digit before the point that is left out
still counts for the power of ten. -/
def read? (numeral : Numeral) : Option Numeric :=
  let (leading, dropped) := gather 0 numeral.whole
  let (significand, left) := gather leading numeral.fraction
  let places := numeral.fraction.length - left
  if numeral.isIntegral && dropped == 0 then numeral.integer? significand
  else
    let exponent : Int := dropped - places + numeral.exponent.getD 0
    Numeric.ofNumber? (numeral.signed (scaled (.ofInt significand) exponent))

end Numeral

end NestedStyles.Json
