/-
# Balanced groups inside a bareword

Inside a bareword a bracket, a brace or a quote may open a group. If the
brackets and braces in it match and every quoted part in it ends, the group
belongs to the word as it stands, blanks and commas included.

Key definitions: `closerOf?`, `groupLength`, `balancedGroup?`.
Key theorem: `balancedGroup?_le_length`.
-/
import CommandConsole.Text.Cursor

namespace CommandConsole

/-- The character that closes a group opened by a bracket or a brace. -/
def closerOf? (c : Char) : Option Char :=
  if c = '{' then some '}' else if c = '[' then some ']' else none

/-- How many characters remain of a group of which the characters `closers` are still
to come, innermost first, and which is inside a quoted part if `quoted` is set.
There is no answer if the group never ends or closes in the wrong order. A
backslash takes the character after it along. -/
def groupLength (closers : List Char) (quoted : Bool) : List Char → Option Nat
  | [] => none
  | '\\' :: [] => none
  | '\\' :: _ :: cs => (groupLength closers quoted cs).map (· + 2)
  | c :: cs =>
    if quoted then
      if c = '"' then
        if closers = [] then some 1 else (groupLength closers false cs).map (· + 1)
      else (groupLength closers true cs).map (· + 1)
    else if c = '"' then (groupLength closers true cs).map (· + 1)
    else match closerOf? c with
      | some closer => (groupLength (closer :: closers) false cs).map (· + 1)
      | none =>
        if c = '}' ∨ c = ']' then
          match closers with
          | [] => none
          | top :: outer =>
            if c ≠ top then none
            else if outer = [] then some 1
            else (groupLength outer false cs).map (· + 1)
        else (groupLength closers false cs).map (· + 1)

/-- The number of characters of the balanced group at the start of `cs`. -/
def balancedGroup? (cs : List Char) : Option Nat := groupLength [] false cs

theorem groupLength_le_length (closers : List Char) (quoted : Bool) (cs : List Char) (n : Nat)
    (h : groupLength closers quoted cs = some n) : 0 < n ∧ n ≤ cs.length := by
  fun_induction groupLength closers quoted cs generalizing n <;>
    simp_all <;> (try obtain ⟨m, hm, rfl⟩ := h) <;> grind

/-- A balanced group is not empty and lies in the text. -/
theorem balancedGroup?_le_length {cs : List Char} {n : Nat} (h : balancedGroup? cs = some n) :
    0 < n ∧ n ≤ cs.length :=
  groupLength_le_length [] false cs n h

end CommandConsole
