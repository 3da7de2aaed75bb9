/-!
# Double-precision numbers

A finite number is a sign, a significand below 2^53 and a power of two from -1074 on, so that every
finite number is an exact rational. `Number.ofDecimal` is the number nearest to a decimal numeral,
a tie going to the even significand.
-/

namespace NestedStyles

/-- A double-precision number. -/
inductive Number where
  | nan
  | infinite (negative : Bool)
  /-- The number `± significand * 2 ^ exponent`. -/
  | finite (negative : Bool) (significand : Nat) (exponent : Int)
deriving DecidableEq

/-- The decimal numeral `± digits * 10 ^ exponent`. -/
structure Decimal where
  negative : Bool
  digits : Nat
  exponent : Int
deriving DecidableEq

namespace Number

/-- Neither infinite nor not a number. -/
def isFinite : Number → Bool
  | .finite .. => true
  | _ => false

/-- Zero of the given sign. -/
def zero (negative : Bool) : Number := .finite negative 0 (-1074)

/-- The least significand of 53 bits. -/
def leastFull : Nat := Nat.pow 2 52

/-- The quotient rounded to a natural number, a tie going to the even one. -/
def roundedQuotient (num den : Nat) : Nat :=
  let rest := num % den
  if 2 * rest < den || (2 * rest == den && num / den % 2 == 0) then num / den else num / den + 1

/-- `num / den / 2 ^ exponent` as a quotient of natural numbers. -/
def scaled (num den : Nat) (exponent : Int) : Nat × Nat :=
  (num * Nat.pow 2 (-exponent).toNat, den * Nat.pow 2 exponent.toNat)

/-- The power of two that leaves `num / den` a significand of 53 bits, or fewer at the lower end of
the range. -/
def exponentOf (num den : Nat) : Int :=
  let low := max (-1074) ((num.log2 : Int) - den.log2 - 53)
  let (n, d) := scaled num den low
  if n / d < 2 * leastFull then low else low + 1

/-- The number nearest to `± num / den`. -/
def ofRatio (negative : Bool) (num den : Nat) : Number :=
  if num = 0 then zero negative
  else
    let exponent := exponentOf num den
    let (n, d) := scaled num den exponent
    let significand := roundedQuotient n d
    let carried := significand = 2 * leastFull
    let exponent := if carried then exponent + 1 else exponent
    if exponent > 971 then .infinite negative
    else .finite negative (if carried then leastFull else significand) exponent

/-- The number nearest to a decimal numeral. A numeral far out of range is not computed: above
`10 ^ 400` it is infinite, and below `10 ^ -400` it is zero. -/
def ofDecimal (d : Decimal) : Number :=
  if d.digits = 0 || d.exponent < -(400 + d.digits.log2) then zero d.negative
  else if d.exponent > 400 then .infinite d.negative
  else ofRatio d.negative (d.digits * Nat.pow 10 d.exponent.toNat)
    (Nat.pow 10 (-d.exponent).toNat)

end Number

end NestedStyles
