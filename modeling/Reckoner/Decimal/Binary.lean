/-
Doubles taken apart and put together. `Double.of` reads the sign, mantissa and exponent of a float off its
64 bits, so that a finite one is exactly `mantissa * 2 ^ exponent`. `nearest` goes the other way: from a
quotient of naturals to the nearest double, halves going to the even mantissa and overflow to infinity.

The doubles of `number` come from here, and so does what `to_i32` leaves of a double.
-/

namespace Reckoner.Decimal

def pow2 (n : Nat) : Nat := Nat.pow 2 n

def pow10 (n : Nat) : Nat := Nat.pow 10 n

/-- what a float stands for -/
inductive Double where
  | nan
  | infinite (negative : Bool)
  /-- the number `mantissa * 2 ^ exponent`, with its sign -/
  | finite (negative : Bool) (mantissa : Nat) (exponent : Int)
  deriving DecidableEq, Repr

/-- the least exponent of a double, that of the subnormal ones -/
def leastExponent : Int := -1074

/-- sign, exponent field and fraction field of the bits, read as a number -/
def Double.ofBits (bits : Nat) : Double :=
  let negative := pow2 63 ≤ bits
  let field : Nat := bits / pow2 52 % pow2 11
  let fraction := bits % pow2 52
  if field = 2047 then
    if fraction = 0 then .infinite negative else .nan
  else if field = 0 then .finite negative fraction leastExponent
  else .finite negative (pow2 52 + fraction) (leastExponent + field - 1)

def Double.of (x : Float) : Double :=
  .ofBits x.toBits.toNat

/-- the whole number that a finite double is, if it is one -/
def Double.whole? (mantissa : Nat) (exponent : Int) : Option Nat :=
  if 0 ≤ exponent then some (mantissa * pow2 exponent.toNat)
  else
    let unit := pow2 (-exponent).toNat
    if mantissa % unit = 0 then some (mantissa / unit) else none

/-- the whole number that is left of a finite double when its fraction is dropped -/
def Double.truncate (negative : Bool) (mantissa : Nat) (exponent : Int) : Int :=
  let size := if 0 ≤ exponent then mantissa * pow2 exponent.toNat else mantissa / pow2 (-exponent).toNat
  if negative then -size else size

/-! ## Rounding a quotient -/

/-- the natural nearest to `num / den`, a half going to the even one -/
def roundHalfEven (num den : Nat) : Nat :=
  let low := num / den
  let twice := 2 * (num % den)
  if twice < den then low
  else if den < twice then low + 1
  else low + low % 2

/-- the exponent `e` with `2 ^ e ≤ num / den < 2 ^ (e + 1)`, for positive `num` and `den` -/
def floorLog2 (num den : Nat) : Int :=
  let guess : Int := (num.log2 : Int) - den.log2
  let reaches :=
    if 0 ≤ guess then den * pow2 guess.toNat ≤ num else den ≤ num * pow2 (-guess).toNat
  if reaches then guess else guess - 1

/-- the bits of positive infinity: the greatest among the bits of positive numbers -/
def infinityBits : Nat := 2047 * pow2 52

/-- The bits of the double nearest to `num / den`. With `m` the quotient rounded to units of `2 ^ q`, the bits
are `m + (q + 1074) * 2 ^ 52`, whether the double is subnormal, normal or has just grown by one binade. -/
def nearestBits (num den : Nat) : Nat :=
  if num = 0 then 0
  else
    let q := max leastExponent (floorLog2 num den - 52)
    let m := if 0 ≤ q then roundHalfEven num (den * pow2 q.toNat)
      else roundHalfEven (num * pow2 (-q).toNat) den
    min infinityBits (m + (q - leastExponent).toNat * pow2 52)

def nearest (num den : Nat) : Float :=
  Float.ofBits (nearestBits num den).toUInt64

end Reckoner.Decimal
