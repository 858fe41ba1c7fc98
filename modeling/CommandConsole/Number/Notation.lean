/-
# Decimal notation of numbers

A number is written with its shortest digits. A format says which numbers are
written without an exponent, what follows a whole number, and which way a tie
between two shortest decimals goes.

Key definitions: `FloatFormat`, `FloatFormat.plain`, `FloatFormat.json`, `writeFloat`,
`writeJsonFloat?`.
-/
import CommandConsole.Number.Shortest

namespace CommandConsole

structure FloatFormat where
  tie : Tie
  /-- Whether a number whose first digit has this exponent is written without an exponent. -/
  positional : Int → Bool
  /-- What follows a number without a fraction. -/
  wholeEnding : String

/-- Plain numbers never have an exponent, and whole ones no point. -/
def FloatFormat.plain : FloatFormat := ⟨.up, fun _ => true, ""⟩

/-- In JSON a whole number has the fraction `.0`, and a number whose first digit does not
stand between the fifth place after the point and the sixteenth before it has an exponent. -/
def FloatFormat.json : FloatFormat := ⟨.even, fun e => -5 ≤ e && e ≤ 15, ".0"⟩

def zeros (n : Nat) : List Char := List.replicate n '0'

/-- Digits with the point before the last `places` of them. -/
def withPoint (digits : List Char) (places : Nat) : List Char :=
  if places < digits.length then
    digits.take (digits.length - places) ++ '.' :: digits.drop (digits.length - places)
  else '0' :: '.' :: (zeros (places - digits.length) ++ digits)

/-- The sign of an exponent is always written. -/
def writeExponent (e : Int) : List Char :=
  'e' :: (if e < 0 then '-' else '+') :: Nat.toDigits 10 e.natAbs

def FloatFormat.writeDecimal (f : FloatFormat) (d : Decimal) : List Char :=
  let digits := Nat.toDigits 10 d.digits
  let lead := d.exponent + digits.length - 1
  if f.positional lead then
    if 0 ≤ d.exponent then digits ++ zeros d.exponent.toNat ++ f.wholeEnding.toList
    else withPoint digits (-d.exponent).toNat
  else
    let mantissa := if digits.length = 1 then digits else withPoint digits (digits.length - 1)
    mantissa ++ writeExponent lead

def FloatFormat.writeFinite (f : FloatFormat) (negative : Bool) (x : Finite) : String :=
  let magnitude :=
    if x.units = 0 then '0' :: f.wholeEnding.toList else f.writeDecimal (shortest f.tie x)
  String.ofList (if negative then '-' :: magnitude else magnitude)

/-- A number as it is shown to a reader. -/
def writeFloat (x : Float) : String :=
  match shapeOf x with
  | .nan => "NaN"
  | .infinite negative => if negative then "-inf" else "inf"
  | .finite negative magnitude => FloatFormat.plain.writeFinite negative magnitude

/-- A number in JSON, which has no form for infinities and for what is not a number. -/
def writeJsonFloat? (x : Float) : Option String :=
  match shapeOf x with
  | .nan | .infinite _ => none
  | .finite negative magnitude => some (FloatFormat.json.writeFinite negative magnitude)

end CommandConsole
