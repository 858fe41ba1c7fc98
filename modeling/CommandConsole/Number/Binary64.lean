/-
# Binary floating point numbers

A finite number of 64 bits is a whole number of units, and a unit is a power
of two. Rounding a fraction to such a number takes the nearest one, and of two
that are equally near the one with an even last bit.

Key definitions: `Finite`, `FloatShape`, `shapeOf`, `roundQuotient`, `nearestFloat`.
-/

namespace CommandConsole

/-- The number `units * 2 ^ exponent`, and how far it is to the number below it. -/
structure Finite where
  units : Nat
  exponent : Int
  /-- The number below is half a unit away: the units are at a power of two. -/
  narrowBelow : Bool

inductive FloatShape where
  | nan
  | infinite (negative : Bool)
  | finite (negative : Bool) (magnitude : Finite)

/-- Takes the bits of a number apart: the sign, eleven bits of exponent, and a fraction of 52 bits. -/
def shapeOfBits (bits : Nat) : FloatShape :=
  let negative := bits / Nat.pow 2 63 % 2 == 1
  let biased : Nat := bits / Nat.pow 2 52 % Nat.pow 2 11
  let fraction : Nat := bits % Nat.pow 2 52
  if biased = 2047 then
    if fraction = 0 then .infinite negative else .nan
  else if biased = 0 then .finite negative ⟨fraction, -1074, false⟩
  else .finite negative ⟨Nat.pow 2 52 + fraction, (biased : Int) - 1075, fraction == 0 && biased != 1⟩

def shapeOf (x : Float) : FloatShape := shapeOfBits x.toBits.toNat

/-- The quotient of two numbers, rounded to the nearest whole number, a half to the even one. -/
def roundQuotient (numerator denominator : Nat) : Nat :=
  let q := numerator / denominator
  let twice := 2 * (numerator % denominator)
  if denominator < twice ∨ (denominator = twice ∧ q % 2 = 1) then q + 1 else q

/-- The fraction `numerator / denominator` in units of `2 ^ exponent`, rounded. -/
def roundInUnits (numerator denominator : Nat) (exponent : Int) : Nat :=
  roundQuotient (numerator * Nat.pow 2 (-exponent).toNat) (denominator * Nat.pow 2 exponent.toNat)

/-- Whether the fraction is at least `2 ^ 53` units of `2 ^ exponent`. -/
def exceedsUnits (numerator denominator : Nat) (exponent : Int) : Bool :=
  Nat.pow 2 53 * (denominator * Nat.pow 2 exponent.toNat) ≤ numerator * Nat.pow 2 (-exponent).toNat

/-- The bits of the number nearest to a positive fraction. The exponent is the smallest
for which the fraction has at most 53 bits; past the largest number comes infinity. -/
def nearestBits (numerator denominator : Nat) : Nat :=
  let guess : Int := (numerator.log2 : Int) - denominator.log2 - 53
  let exponent := if exceedsUnits numerator denominator guess then guess + 1 else guess
  let exponent := max exponent (-1074)
  let bits := (exponent + 1074).toNat * Nat.pow 2 52 + roundInUnits numerator denominator exponent
  min bits (2047 * Nat.pow 2 52)

/-- The number nearest to `mantissa * 10 ^ exponent`. A number past `10 ^ 400` is infinite
and one below `10 ^ -400` is zero, so their powers need not be computed. -/
def nearestFloat (negative : Bool) (mantissa : Nat) (exponent : Int) : Float :=
  let digits : Int := (Nat.toDigits 10 mantissa).length
  let bits :=
    if mantissa = 0 ∨ digits + exponent < -400 then 0
    else if 400 < digits + exponent then 2047 * Nat.pow 2 52
    else nearestBits (mantissa * Nat.pow 10 exponent.toNat) (Nat.pow 10 (-exponent).toNat)
  Float.ofBits (UInt64.ofNat (bits + if negative then Nat.pow 2 63 else 0))

end CommandConsole
