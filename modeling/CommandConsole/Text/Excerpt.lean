/-
# Excerpts

An excerpt is a text with a span of it that something is said about.

Key definitions: `sliceBytes?`, `Excerpt`, `Excerpt.snippet`, `characterSpan`.
-/
import CommandConsole.Text.Part

namespace CommandConsole

/-- Whether an offset lies in the text and between two of its characters. -/
def isBoundary (text : String) (offset : Nat) : Bool := (Cursor.seek text offset).offset == offset

/-- The text between two byte offsets, if both are boundaries. -/
def sliceBytes? (text : String) (start stop : Nat) : Option String :=
  if isBoundary text start ∧ isBoundary text stop then
    some ((Cursor.seek text start).textTo (Cursor.seek text stop))
  else none

structure Excerpt where
  text : String
  span : Span

/-- The text that the span covers; nothing if it cuts through a character. -/
def Excerpt.snippet (e : Excerpt) : String :=
  let stop := min e.span.stop (textLength e.text)
  (sliceBytes? e.text (min e.span.start stop) stop).getD ""

/-- The span of the character at an offset; an empty one if no character starts there. -/
def characterSpan (text : String) (offset : Nat) : Span :=
  let c := Cursor.seek text offset
  match c.offset == offset, c.peek with
  | true, some ch => ⟨offset, offset + ch.utf8Size⟩
  | _, _ => .point (min offset (textLength text))

end CommandConsole
