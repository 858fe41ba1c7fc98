/-
# Shortest digits

Of all decimals that read back as a given number, one with the fewest digits
is written, and of those the one nearest to the number. For each count of
digits only two decimals can be it: the neighbours of the number on the grid
of decimals with that many digits.

Key definitions: `Tie`, `Decimal`, `shortest`.
-/
import CommandConsole.Number.Binary64

namespace CommandConsole

/-- What to do with a number half way between two decimals. -/
inductive Tie where
  | up
  | even
  deriving DecidableEq

/-- The number `digits * 10 ^ exponent`. -/
structure Decimal where
  digits : Nat
  exponent : Int
  deriving DecidableEq

/-- Removes the zeros at the end of the digits. The fuel is the number of digits. -/
def Decimal.strip : Nat → Decimal → Decimal
  | 0, d => d
  | fuel + 1, d =>
    if d.digits ≠ 0 ∧ d.digits % 10 = 0 then strip fuel ⟨d.digits / 10, d.exponent + 1⟩ else d

/-- The exponent of the first decimal digit of a positive fraction. -/
def leadingExponent (numerator denominator : Nat) : Int :=
  if denominator ≤ numerator then (Nat.toDigits 10 (numerator / denominator)).length - 1
  else -((Nat.toDigits 10 ((denominator - 1) / numerator)).length : Int)

/-- The decimal with the step `10 ^ exponent` that reads back as `x` and is nearest to it,
if there is one. All is compared in quarters of the units of `x`. -/
def onGrid? (tie : Tie) (x : Finite) (exponent : Int) : Option Decimal :=
  let quarter := x.exponent - 2
  let step := Nat.pow 10 exponent.toNat * Nat.pow 2 (-quarter).toNat
  let scale := Nat.pow 10 (-exponent).toNat * Nat.pow 2 quarter.toNat
  let value := 4 * x.units * scale
  let low := (4 * x.units - if x.narrowBelow then 1 else 2) * scale
  let high := (4 * x.units + 2) * scale
  let readsBack (d : Nat) : Bool :=
    if x.units % 2 = 0 then low ≤ d * step && d * step ≤ high
    else low < d * step && d * step < high
  let below := value / step
  let above := below + 1
  let takeAbove : Bool :=
    match readsBack below, readsBack above with
    | true, true =>
      let toBelow := value - below * step
      let toAbove := above * step - value
      if toBelow = toAbove then tie == .up || below % 2 == 1 else toAbove < toBelow
    | _, above => above
  if readsBack below || readsBack above then some ⟨if takeAbove then above else below, exponent⟩
  else none

/-- The shortest decimal that reads back as the positive number `x`. Seventeen digits are
always enough. -/
def shortest (tie : Tie) (x : Finite) : Decimal :=
  let lead := leadingExponent (x.units * Nat.pow 2 x.exponent.toNat) (Nat.pow 2 (-x.exponent).toNat)
  let found := (List.range 17).findSome? fun (n : Nat) => onGrid? tie x (lead - n)
  (found.getD ⟨0, 0⟩).strip 17

end CommandConsole
