/-
# Cursors

A cursor is a place between two characters of a text: the bytes before it and
the characters after it. Reading never changes a cursor, it gives another one,
so going back is keeping the old one.

Key definitions: `byteLength`, `Cursor`, `Cursor.seek`, `Cursor.textTo`.
Key theorems: `Cursor.skipBlanks_rest_length_le`, `Cursor.seek_byteLength`.
-/
import CommandConsole.Text.Blank
import CommandConsole.Text.Span

namespace CommandConsole

/-- The number of bytes of the UTF-8 form of the characters. -/
def byteLength : List Char → Nat
  | [] => 0
  | c :: cs => c.utf8Size + byteLength cs

@[simp] theorem byteLength_nil : byteLength [] = 0 := rfl

@[simp] theorem byteLength_cons (c : Char) (cs : List Char) :
    byteLength (c :: cs) = c.utf8Size + byteLength cs := rfl

@[simp] theorem byteLength_append : ∀ a b : List Char,
    byteLength (a ++ b) = byteLength a + byteLength b
  | [], b => by simp
  | c :: a, b => by simp [byteLength_append a b]; omega

structure Cursor where
  /-- How many bytes of the text lie before the cursor. -/
  offset : Nat
  /-- The characters after the cursor. -/
  rest : List Char
  deriving DecidableEq

namespace Cursor

instance : Inhabited Cursor := ⟨⟨0, []⟩⟩

/-- The cursor at the start of a text. -/
def start (text : String) : Cursor := ⟨0, text.toList⟩

def atEnd (c : Cursor) : Bool := c.rest.isEmpty

def peek (c : Cursor) : Option Char := c.rest.head?

/-- The character after the one that `peek` gives. -/
def peekSecond (c : Cursor) : Option Char := c.rest.tail.head?

/-- Steps over one character; at the end of the text the cursor stays. -/
def advance (c : Cursor) : Cursor :=
  match c.rest with
  | [] => c
  | ch :: cs => ⟨c.offset + ch.utf8Size, cs⟩

/-- Moves over the characters of `cs` that satisfy `p`, up to the first that does not. -/
def skipFrom (p : Char → Bool) (offset : Nat) : List Char → Cursor
  | [] => ⟨offset, []⟩
  | c :: cs => if p c then skipFrom p (offset + c.utf8Size) cs else ⟨offset, c :: cs⟩

def skipWhile (p : Char → Bool) (c : Cursor) : Cursor := skipFrom p c.offset c.rest

def skipBlanks (c : Cursor) : Cursor := c.skipWhile isBlank

/-- Moves forward to the last boundary between characters that does not lie
behind the byte offset `target`, and at most to the end of the text. -/
def seekFrom (target offset : Nat) : List Char → Cursor
  | [] => ⟨offset, []⟩
  | c :: cs =>
    if offset + c.utf8Size ≤ target then seekFrom target (offset + c.utf8Size) cs
    else ⟨offset, c :: cs⟩

/-- The cursor at a byte offset of a text. An offset past the end gives the end of
the text, and one inside a character gives the start of that character. -/
def seek (text : String) (target : Nat) : Cursor := seekFrom target 0 text.toList

/-- The characters between a cursor and a later one of the same text. -/
def charsTo (c later : Cursor) : List Char :=
  c.rest.take (c.rest.length - later.rest.length)

def textTo (c later : Cursor) : String := String.ofList (c.charsTo later)

def spanTo (c later : Cursor) : Span := ⟨c.offset, later.offset⟩

@[simp] theorem advance_rest (c : Cursor) : c.advance.rest = c.rest.tail := by
  unfold advance
  split <;> simp_all

theorem peek_of_rest {c : Cursor} {ch : Char} {cs : List Char} (h : c.rest = ch :: cs) :
    c.peek = some ch := by
  simp [peek, h]

theorem advance_rest_length_le (c : Cursor) : c.advance.rest.length ≤ c.rest.length := by
  unfold advance; split <;> simp_all

theorem advance_rest_length_lt {c : Cursor} {ch : Char} (h : c.peek = some ch) :
    c.advance.rest.length < c.rest.length := by
  unfold peek at h
  unfold advance
  split <;> simp_all

theorem skipFrom_rest_length_le (p : Char → Bool) : ∀ (offset : Nat) (cs : List Char),
    (skipFrom p offset cs).rest.length ≤ cs.length
  | _, [] => by simp [skipFrom]
  | offset, c :: cs => by
    have := skipFrom_rest_length_le p (offset + c.utf8Size) cs
    unfold skipFrom
    split
    · simp only [List.length_cons]; omega
    · simp

theorem skipBlanks_rest_length_le (c : Cursor) : c.skipBlanks.rest.length ≤ c.rest.length :=
  skipFrom_rest_length_le isBlank c.offset c.rest

/-- A cursor that skips blanks stands before exactly the text without its leading blanks. -/
theorem skipFrom_blank_rest : ∀ (offset : Nat) (cs : List Char),
    (skipFrom isBlank offset cs).rest = dropBlanks cs
  | _, [] => rfl
  | offset, c :: cs => by
    unfold skipFrom dropBlanks
    split
    · exact skipFrom_blank_rest _ cs
    · rfl

@[simp] theorem skipBlanks_rest (c : Cursor) : c.skipBlanks.rest = dropBlanks c.rest :=
  skipFrom_blank_rest c.offset c.rest

theorem seekFrom_self : ∀ (offset : Nat) (cs : List Char), seekFrom offset offset cs = ⟨offset, cs⟩
  | _, [] => rfl
  | offset, c :: cs => by
    have := c.utf8Size_pos
    unfold seekFrom
    rw [if_neg (by omega)]

theorem seekFrom_append (b : List Char) : ∀ (offset : Nat) (a : List Char),
    seekFrom (offset + byteLength a) offset (a ++ b) = ⟨offset + byteLength a, b⟩
  | offset, [] => by simpa using seekFrom_self offset b
  | offset, c :: a => by
    have := seekFrom_append b (offset + c.utf8Size) a
    simp only [List.cons_append, byteLength_cons, seekFrom]
    rw [if_pos (by omega), ← Nat.add_assoc, this]

/-- Seeking the byte length of a beginning of the text leaves exactly what follows it. -/
theorem seek_byteLength {text : String} {a b : List Char} (h : text.toList = a ++ b) :
    seek text (byteLength a) = ⟨byteLength a, b⟩ := by
  have := seekFrom_append b 0 a
  simpa [seek, h] using this

end Cursor
end CommandConsole
