/-
# Reading integers

An integer is an optional sign and decimal digits, nothing else. It has to fit
into a signed word of 64 bits; the first fault from the left is the one that
is reported.

Key definitions: `digit?`, `IntegerFault`, `readInteger`.
-/

namespace CommandConsole

/-- The value of a decimal digit of ASCII. -/
def digit? (c : Char) : Option Nat :=
  if '0' ≤ c ∧ c ≤ '9' then some (c.toNat - 48) else none

inductive IntegerFault where
  | empty
  | invalidDigit
  | tooLarge
  | tooSmall
  deriving DecidableEq

def IntegerFault.message : IntegerFault → String
  | .empty => "cannot parse integer from empty string"
  | .invalidDigit => "invalid digit found in string"
  | .tooLarge => "number too large to fit in target type"
  | .tooSmall => "number too small to fit in target type"

/-- Appends decimal digits to the number `n`, which may not grow past `bound`. -/
def appendDigits (bound : Nat) (overflow : IntegerFault) (n : Nat) :
    List Char → Except IntegerFault Nat
  | [] => .ok n
  | c :: cs =>
    match digit? c with
    | none => .error .invalidDigit
    | some d =>
      if bound < 10 * n + d then .error overflow
      else appendDigits bound overflow (10 * n + d) cs

/-- The digits behind a sign; there has to be one. -/
def readMagnitude (bound : Nat) (overflow : IntegerFault) : List Char → Except IntegerFault Nat
  | [] => .error .invalidDigit
  | cs => appendDigits bound overflow 0 cs

def readInteger (text : String) : Except IntegerFault Int64 :=
  match text.toList with
  | [] => .error .empty
  | '-' :: cs => (readMagnitude (Nat.pow 2 63) .tooSmall cs).map fun n => Int64.ofInt (-n)
  | '+' :: cs => (readMagnitude (Nat.pow 2 63 - 1) .tooLarge cs).map fun n => Int64.ofInt n
  | cs => (readMagnitude (Nat.pow 2 63 - 1) .tooLarge cs).map fun n => Int64.ofInt n

end CommandConsole
