import NestedStyles.Number.Basic

/-!
# Arithmetic on double-precision numbers

Each operation gives the number nearest to the exact result, a tie going to the even significand.
-/

namespace NestedStyles.Number

/-- The number nearest to an integer. -/
def ofInt (n : Int) : Number := ofRatio (n < 0) n.natAbs 1

/-- Zero of either sign. -/
def isZero : Number → Bool
  | .finite _ significand _ => significand == 0
  | _ => false

/-- The number with the other sign. -/
def neg : Number → Number
  | .nan => .nan
  | .infinite negative => .infinite !negative
  | .finite negative significand exponent => .finite (!negative) significand exponent

/-- The product of two numbers. -/
def mul : Number → Number → Number
  | .finite a m e, .finite b n f =>
    ofRatio (a != b) (m * n * Nat.pow 2 (e + f).toNat) (Nat.pow 2 (-(e + f)).toNat)
  | .infinite a, .finite b n _ => if n = 0 then .nan else .infinite (a != b)
  | .finite a m _, .infinite b => if m = 0 then .nan else .infinite (a != b)
  | .infinite a, .infinite b => .infinite (a != b)
  | _, _ => .nan

/-- The quotient of two numbers. -/
def div : Number → Number → Number
  | .finite a m e, .finite b n f =>
    if n = 0 then if m = 0 then .nan else .infinite (a != b)
    else ofRatio (a != b) (m * Nat.pow 2 (e - f).toNat) (n * Nat.pow 2 (f - e).toNat)
  | .infinite a, .finite b .. => .infinite (a != b)
  | .finite a .., .infinite b => zero (a != b)
  | _, _ => .nan

end NestedStyles.Number
