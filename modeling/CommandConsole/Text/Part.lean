/-
# Parts of texts

Key definitions: `beginsWith`, `endsBlank`, `splitOnce?`, `textBefore`, `textFrom`.
-/
import CommandConsole.Text.Cursor

namespace CommandConsole

def beginsWith (text start : String) : Bool := start.toList.isPrefixOf text.toList

/-- Whether the last character of a text is blank. -/
def endsBlank (text : String) : Bool := text.toList.getLast?.any isBlank

/-- The characters before and after the first `mark`. -/
def splitOnce? (mark : Char) : List Char → Option (List Char × List Char)
  | [] => none
  | c :: cs =>
    if c = mark then some ([], cs) else (splitOnce? mark cs).map fun r => (c :: r.1, r.2)

/-- The text before a byte offset; an offset inside a character is moved back to its start. -/
def textBefore (text : String) (offset : Nat) : String :=
  (Cursor.start text).textTo (Cursor.seek text offset)

/-- The text from a byte offset on. -/
def textFrom (text : String) (offset : Nat) : String :=
  String.ofList (Cursor.seek text offset).rest

def textLength (text : String) : Nat := byteLength text.toList

end CommandConsole
