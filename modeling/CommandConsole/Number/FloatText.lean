/-
# Reading floating point numbers

    number   := sign? (digits ('.' digits?)? | '.' digits) exponent?
    exponent := ('e' | 'E') sign? digits

The words `inf`, `infinity` and `nan`, in letters of either case and with a
sign or without, are numbers too. The number read is the one nearest to the
decimal that is written.

Key definitions: `FloatFault`, `readFloat`.
-/
import CommandConsole.Number.Binary64
import CommandConsole.Number.Integer

namespace CommandConsole

inductive FloatFault where
  | empty
  | invalid
  deriving DecidableEq

def FloatFault.message : FloatFault → String
  | .empty => "cannot parse float from empty string"
  | .invalid => "invalid float literal"

/-- The digits at the start of a text, and what follows them. -/
def takeDigits : List Char → List Nat × List Char
  | [] => ([], [])
  | c :: cs =>
    match digit? c with
    | none => ([], c :: cs)
    | some d => let (ds, rest) := takeDigits cs; (d :: ds, rest)

def numberOfDigits (ds : List Nat) : Nat := ds.foldl (fun n d => 10 * n + d) 0

/-- A sign at the start of a text, and what follows it. -/
def takeSign : List Char → Bool × List Char
  | '-' :: cs => (true, cs)
  | '+' :: cs => (false, cs)
  | cs => (false, cs)

/-- The exponent that ends a number; nothing stands for the exponent zero. -/
def readExponent? : List Char → Option Int
  | [] => some 0
  | c :: cs =>
    if c = 'e' ∨ c = 'E' then
      let (negative, cs) := takeSign cs
      match takeDigits cs with
      | ([], _) => none
      | (ds, []) => some (if negative then -(numberOfDigits ds : Int) else numberOfDigits ds)
      | _ => none
    else none

/-- A number in digits, without its sign. -/
def readDecimal? (negative : Bool) (cs : List Char) : Option Float :=
  let (whole, cs) := takeDigits cs
  let (fraction, cs) := match cs with
    | '.' :: ds => takeDigits ds
    | ds => ([], ds)
  if whole = [] ∧ fraction = [] then none
  else (readExponent? cs).map fun e =>
    nearestFloat negative (numberOfDigits (whole ++ fraction)) (e - fraction.length)

def readFloat (text : String) : Except FloatFault Float :=
  if text.toList = [] then .error .empty
  else
    let (negative, cs) := takeSign text.toList
    let word := String.ofList (cs.map Char.toLower)
    if word = "inf" ∨ word = "infinity" then
      .ok (Float.ofBits (if negative then 0xFFF0000000000000 else 0x7FF0000000000000))
    else if word = "nan" then .ok (Float.ofBits 0x7FF8000000000000)
    else match readDecimal? negative cs with
      | some x => .ok x
      | none => .error .invalid

end CommandConsole
