/-
# Scalars

A scalar is quoted or bare. Between quotes, a backslash before a quote or a
backslash stands for that character, and every other character for itself. A
bareword runs up to the first character that ends it where it stands; in it a
backslash stands for the character after it, and a balanced group for itself.
Inside a container the blanks at the end of a bareword do not belong to it.

Key definitions: `ScalarScan`, `scanQuoted`, `Place`, `scanBareword`.
Key theorems: `scanQuoted_after_length_le`, `scanBareword_after_length_le`.
-/
import CommandConsole.Literal.Group

namespace CommandConsole

/-- What reading a scalar gives. -/
structure ScalarScan where
  /-- The text of the scalar, without escapes. -/
  text : List Char
  /-- The offset where the scalar ends. -/
  stop : Nat
  /-- Where reading stopped: behind the scalar and the blanks dropped from its end. -/
  after : Cursor
  /-- Not set for a quoted scalar whose closing quote is missing. -/
  closed : Bool

/-- The scan of a scalar that has one more character in front. -/
def ScalarScan.prepend (c : Char) (s : ScalarScan) : ScalarScan := { s with text := c :: s.text }

/-- Reads a quoted scalar from the character after its opening quote. -/
def scanQuoted (offset : Nat) : List Char → ScalarScan
  | [] => ⟨[], offset, ⟨offset, []⟩, false⟩
  | '"' :: cs => ⟨[], offset + 1, ⟨offset + 1, cs⟩, true⟩
  | '\\' :: c :: cs =>
    if c = '"' ∨ c = '\\' then (scanQuoted (offset + 2) cs).prepend c
    else (scanQuoted (offset + 1) (c :: cs)).prepend '\\'
  | c :: cs => (scanQuoted (offset + c.utf8Size) cs).prepend c

/-- Where a value stands: on its own, or in a container. -/
inductive Place where
  | topLevel
  | nested
  deriving DecidableEq

/-- The characters that end a bareword. -/
def Place.ends (place : Place) (c : Char) : Bool :=
  match place with
  | .topLevel => isBlank c
  | .nested => [',', '=', '}', ']'].contains c

def opensGroup (c : Char) : Bool := ['{', '[', '"'].contains c

/-- Reads a bareword. The next `verbatim` characters belong to a balanced group and stand
for themselves. -/
def scanBareword (place : Place) (verbatim offset : Nat) : List Char → ScalarScan
  | [] => ⟨[], offset, ⟨offset, []⟩, true⟩
  | c :: cs =>
    match verbatim with
    | n + 1 => (scanBareword place n (offset + c.utf8Size) cs).prepend c
    | 0 =>
      if place.ends c then ⟨[], offset, ⟨offset, c :: cs⟩, true⟩
      else if c = '\\' then
        match cs with
        | [] => ⟨['\\'], offset + 1, ⟨offset + 1, []⟩, true⟩
        | e :: ds => (scanBareword place 0 (offset + 1 + e.utf8Size) ds).prepend e
      else if opensGroup c then
        match balancedGroup? (c :: cs) with
        | some n => (scanBareword place (n - 1) (offset + c.utf8Size) cs).prepend c
        | none => (scanBareword place 0 (offset + c.utf8Size) cs).prepend c
      else if place = .nested ∧ isBlank c then
        let s := scanBareword place 0 (offset + c.utf8Size) cs
        if s.text = [] then { s with stop := offset } else s.prepend c
      else (scanBareword place 0 (offset + c.utf8Size) cs).prepend c

theorem scanBareword_nil (place : Place) (verbatim offset : Nat) :
    scanBareword place verbatim offset [] = ⟨[], offset, ⟨offset, []⟩, true⟩ := by
  unfold scanBareword
  rfl

theorem scanBareword_ends {place : Place} {c : Char} (h : place.ends c = true) (offset : Nat)
    (cs : List Char) :
    scanBareword place 0 offset (c :: cs) = ⟨[], offset, ⟨offset, c :: cs⟩, true⟩ := by
  unfold scanBareword
  simp [h]

/-- A backslash takes the character after it along, whatever it is. -/
theorem scanBareword_escape (place : Place) (offset : Nat) (c : Char) (cs : List Char) :
    scanBareword place 0 offset ('\\' :: c :: cs) =
      (scanBareword place 0 (offset + 1 + c.utf8Size) cs).prepend c := by
  have h : place.ends '\\' = false := by cases place <;> decide
  conv => lhs; unfold scanBareword
  simp [h]

theorem scanBareword_char {place : Place} {c : Char} (he : place.ends c = false) (hs : c ≠ '\\')
    (ho : opensGroup c = false) (hb : isBlank c = false) (offset : Nat) (cs : List Char) :
    scanBareword place 0 offset (c :: cs) =
      (scanBareword place 0 (offset + c.utf8Size) cs).prepend c := by
  conv => lhs; unfold scanBareword
  simp [he, hs, ho, hb]

/-- In a container a blank belongs to the bareword only if a character follows it. -/
theorem scanBareword_blank {c : Char} (hb : isBlank c = true) (he : Place.nested.ends c = false)
    (hs : c ≠ '\\') (ho : opensGroup c = false) (offset : Nat) (cs : List Char) :
    scanBareword .nested 0 offset (c :: cs) =
      let s := scanBareword .nested 0 (offset + c.utf8Size) cs
      if s.text = [] then { s with stop := offset } else s.prepend c := by
  conv => lhs; unfold scanBareword
  simp [he, hs, ho, hb]

theorem scanQuoted_after_length_le (offset : Nat) (cs : List Char) :
    (scanQuoted offset cs).after.rest.length ≤ cs.length := by
  fun_induction scanQuoted offset cs <;> simp_all [ScalarScan.prepend] <;> omega

theorem scanBareword_after_length_le (place : Place) (verbatim offset : Nat) (cs : List Char) :
    (scanBareword place verbatim offset cs).after.rest.length ≤ cs.length := by
  fun_induction scanBareword place verbatim offset cs <;>
    simp only [ScalarScan.prepend, List.length_cons] at * <;> grind

/-- A bareword takes its first character unless that character ends it. -/
theorem scanBareword_length_lt {place : Place} {c : Char} (cs : List Char) (offset : Nat)
    (h : place.ends c = false) :
    (scanBareword place 0 offset (c :: cs)).after.rest.length < (c :: cs).length := by
  unfold scanBareword
  simp only [h, ScalarScan.prepend, List.length_cons]
  repeat' split
  all_goals grind [scanBareword_after_length_le]

end CommandConsole
