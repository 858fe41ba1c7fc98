/-
# Failures of the literal grammar

A literal that cannot be read fails at a position with the exact set of what
could stand there. The failure also says which containers were open, from the
outermost inward, and which scalar was read last: completion works from these.

Key definitions: `ExpectedTokens`, `Frame`, `ScalarTrace`, `LiteralFailure`.
-/
import CommandConsole.Literal.Basic

namespace CommandConsole

/-- What could stand at a position: some structural characters and, if `value` is
set, the start of a value. If there is neither, only the end of the text could. -/
structure ExpectedTokens where
  chars : List Char
  value : Bool
  deriving DecidableEq

namespace ExpectedTokens

/-- Only the end of the text. -/
def endOfInput : ExpectedTokens := ⟨[], false⟩

/-- The alternatives in words, before they are joined. -/
def parts (e : ExpectedTokens) : List String :=
  e.chars.map (fun c => "'" ++ c.toString ++ "'") ++ (if e.value then ["a value"] else [])

def joinAlternatives : List String → String
  | [] => "end of input"
  | [p] => p
  | p :: ps => String.intercalate ", " (p :: ps).dropLast ++ " or " ++ (ps.getLast?.getD "")

def describe (e : ExpectedTokens) : String := joinAlternatives e.parts

end ExpectedTokens

/-- A container that is open where a literal fails. -/
inductive Frame where
  /-- In a list, at the element with this index. -/
  | list (index : Nat)
  /-- In a map, at the key of the entry with this index; `keys` are those of the entries before. -/
  | mapKey (index : Nat) (keys : List String)
  /-- In a map, at the value for `key`, in the entry with this index. -/
  | mapValue (index : Nat) (key : String)
  deriving DecidableEq

/-- The scalar that was read last. -/
structure ScalarTrace where
  /-- Its text, without escapes. -/
  text : String
  span : Span
  /-- How many containers were open around it. -/
  depth : Nat
  /-- It is a quoted scalar without its closing quote. -/
  openQuote : Bool
  deriving DecidableEq

inductive LiteralFailKind where
  | tokenExpected (expected : ExpectedTokens)
  | nestingLimitExceeded (limit : Nat)
  deriving DecidableEq

structure LiteralFailure where
  kind : LiteralFailKind
  position : Nat
  /-- The open containers, outermost first. -/
  frames : List Frame
  lastScalar : Option ScalarTrace
  deriving DecidableEq

def LiteralFailure.expected? (f : LiteralFailure) : Option ExpectedTokens :=
  match f.kind with
  | .tokenExpected e => some e
  | .nestingLimitExceeded _ => none

end CommandConsole
