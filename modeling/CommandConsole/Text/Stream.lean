/-
# Replayable character streams

A stream reads a text from a starting offset and remembers the furthest
position it has reached. A mark is a byte offset taken from the stream;
restoring it replays the text from there.

Key definitions: `Stream`, `Stream.at`, `Stream.next`, `Stream.restore`.
-/
import CommandConsole.Text.Cursor

namespace CommandConsole

structure Stream where
  text : String
  cursor : Cursor
  /-- The largest offset the cursor has had; no restore goes past it. -/
  highWater : Nat

namespace Stream

/-- The stream of a text that starts at a byte offset; an offset past the end or
inside a character is moved back to a boundary. -/
def «at» (text : String) (offset : Nat) : Stream :=
  let c := Cursor.seek text offset
  ⟨text, c, c.offset⟩

def position (s : Stream) : Nat := s.cursor.offset

def peek (s : Stream) : Option Char := s.cursor.peek

def peekSecond (s : Stream) : Option Char := s.cursor.peekSecond

def isAtEnd (s : Stream) : Bool := s.cursor.atEnd

/-- The stream with its cursor moved forward to `c`. -/
def reach (s : Stream) (c : Cursor) : Stream :=
  { s with cursor := c, highWater := max s.highWater c.offset }

def next (s : Stream) : Option Char × Stream :=
  match s.peek with
  | none => (none, s)
  | some ch => (some ch, s.reach s.cursor.advance)

def mark (s : Stream) : Nat := s.position

def restore (s : Stream) (mark : Nat) : Stream :=
  { s with cursor := Cursor.seek s.text (min mark s.highWater) }

/-- Skips blanks and says whether there were any. -/
def skipBlanks (s : Stream) : Bool × Stream :=
  let c := s.cursor.skipBlanks
  (c.offset != s.position, s.reach c)

/-- Steps over `expected` if it is the next character. -/
def eat (s : Stream) (expected : Char) : Bool × Stream :=
  if s.peek = some expected then (true, s.reach s.cursor.advance) else (false, s)

/-- The text between the offset `start`, or the cursor if that is earlier, and the cursor. -/
def sliceFrom (s : Stream) (start : Nat) : String :=
  (Cursor.seek s.text (min start s.position)).textTo s.cursor

def remaining (s : Stream) : String := String.ofList s.cursor.rest

end Stream
end CommandConsole
