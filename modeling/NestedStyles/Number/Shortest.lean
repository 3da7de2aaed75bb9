import NestedStyles.Number.Basic

/-!
# The fewest digits that read back

Every real number strictly between the midpoints to a double's two neighbours reads back as that
double, and the midpoints do too if its significand is even. `Number.shortest` takes the coarsest
decimal grid that has a point there and, of two such points, the nearer one.
-/

namespace NestedStyles

/-- Which of two equally near points is taken. -/
inductive Tie where
  | up
  | even
deriving DecidableEq

namespace Number

/-- The point of the grid of multiples of `10 ^ place` that stands for the double
`significand * 2 ^ exponent`, as a multiple of `10 ^ place`, if one reads back. Lengths are counted
in quarters of `2 ^ exponent`: the midpoints lie two quarters away, or one quarter below a power of
two. -/
def onGrid (tie : Tie) (significand : Nat) (exponent place : Int) : Option Nat :=
  let top := Nat.pow 2 (exponent - 2).toNat * Nat.pow 10 (-place).toNat
  let bottom := Nat.pow 2 (2 - exponent).toNat * Nat.pow 10 place.toNat
  let value := 4 * significand * top
  let half := if significand = leastFull ∧ exponent > -1074 then 1 else 2
  let low := (4 * significand - half) * top
  let high := (4 * significand + 2) * top
  let readsBack (point : Nat) : Bool :=
    if significand % 2 = 0 then low ≤ point * bottom && point * bottom ≤ high
    else low < point * bottom && point * bottom < high
  let below := value / bottom
  let rest := value % bottom
  match readsBack below, readsBack (below + 1) with
  | true, true =>
    if 2 * rest < bottom then some below
    else if 2 * rest == bottom && tie == .even && below % 2 == 0 then some below
    else some (below + 1)
  | true, false => some below
  | false, true => some (below + 1)
  | false, false => none

/-- The place of a power of ten that is greater than `significand * 2 ^ exponent`. -/
def topPlace (significand : Nat) (exponent : Int) : Int :=
  ((significand.log2 : Int) + exponent + 1) * 30103 / 100000 + 1

/-- The digits of the double `± significand * 2 ^ exponent` for a significand other than zero: a
double has at most 17, and `topPlace` lies at most two places above the first. -/
def shortest (tie : Tie) (negative : Bool) (significand : Nat) (exponent : Int) : Decimal :=
  let top := topPlace significand exponent
  let places := (List.range 20).map fun i => top - (i : Nat)
  let onPlace (place : Int) : Option Decimal :=
    (onGrid tie significand exponent place).map fun point => ⟨negative, point, place⟩
  (places.findSome? onPlace).getD ⟨negative, 0, 0⟩

end Number

end NestedStyles
