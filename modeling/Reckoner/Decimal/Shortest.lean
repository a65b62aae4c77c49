/-
The shortest decimal that reads back as a given double. A positive double `m * 2 ^ q` is what every real
number in an interval around it rounds to; the ends of the interval belong to it exactly when `m` is even.
`shortest` looks for a decimal `d * 10 ^ k` in that interval on the grids of step `10 ^ k`, from a step that is
too wide to ever finer ones, and on each grid only at the two neighbours of the double. The first grid with a
hit gives the fewest digits; of two hits the nearer one is taken, and the upper one if both are equally near.

`format_number` and the display of a token's number write these digits.
-/
import Reckoner.Decimal.Binary

namespace Reckoner.Decimal

/-- the decimal number `digits * 10 ^ exponent` -/
structure Digits where
  digits : Nat
  exponent : Int
  deriving DecidableEq, Repr

/-- Factors that bring decimals of step `10 ^ k` and multiples of `2 ^ e` to one scale: `d * 10 ^ k ≤ x * 2 ^ e`
holds exactly when `d * (scales k e).1 ≤ x * (scales k e).2`. -/
def scales (k e : Int) : Nat × Nat :=
  (pow10 k.toNat * pow2 (-e).toNat, pow2 e.toNat * pow10 (-k).toNat)

/-- The interval of numbers that round to `m * 2 ^ q`, in quarters of `2 ^ q`: it reaches half way to both
neighbours, and the lower neighbour is nearer at the start of a binade. -/
def readsBack (m : Nat) (q : Int) (x : Nat) (unit : Nat) : Bool :=
  let low := if m = pow2 52 && leastExponent < q then 4 * m - 1 else 4 * m - 2
  let high := 4 * m + 2
  if m % 2 = 0 then low * unit ≤ x && x ≤ high * unit else low * unit < x && x < high * unit

/-- the best decimal of step `10 ^ k` for `m * 2 ^ q`, if one of its two neighbours on that grid reads back -/
def onGrid? (m : Nat) (q k : Int) : Option Digits :=
  let (step, unit) := scales k (q - 2)
  let value := 4 * m * unit
  let below := value / step
  let hitsBelow := readsBack m q (below * step) unit
  let hitsAbove := readsBack m q ((below + 1) * step) unit
  let aboveIsNearer := (below + 1) * step - value ≤ value - below * step
  if hitsAbove && (aboveIsNearer || !hitsBelow) then some ⟨below + 1, k⟩
  else if hitsBelow then some ⟨below, k⟩
  else none

/-- the first hit on the grids of step `10 ^ k`, `10 ^ (k - 1)` and so on -/
def descend (m : Nat) (q k : Int) : Nat → Option Digits
  | 0 => none
  | grids + 1 =>
    match onGrid? m q k with
    | some found => some found
    | none => descend m q (k - 1) grids

/-- An exponent whose power of ten is above `m * 2 ^ q` by at most three places: a binary digit is worth about
1233 / 4096 of a decimal one. -/
def coarsest (m : Nat) (q : Int) : Int :=
  ((m.log2 : Int) + q) * 1233 / 4096 + 2

/-- The decimal with the fewest digits that reads back as `m * 2 ^ q`. Seventeen digits always read back, so
twenty-four grids from the coarsest one are enough. -/
def shortest (m : Nat) (q : Int) : Digits :=
  if m = 0 then ⟨0, 0⟩ else (descend m q (coarsest m q) 24).getD ⟨0, 0⟩

end Reckoner.Decimal
