/-
# Blank characters

A character is blank when Unicode gives it the property `White_Space`. Blanks
separate the tokens of a line, and may stand around every bracket, comma and
equals sign of a literal.

Key definitions: `isBlank`, `dropBlanks`.
Key theorems: `isBlank_of_isWhitespace`, `dropBlanks_length_le`, `isBlank_of_dropBlanks`.
-/

namespace CommandConsole

/-- The ranges of code points with the property `White_Space`, in order. -/
def blankRanges : List (Nat × Nat) :=
  [(0x9, 0xD), (0x20, 0x20), (0x85, 0x85), (0xA0, 0xA0), (0x1680, 0x1680), (0x2000, 0x200A),
    (0x2028, 0x2029), (0x202F, 0x202F), (0x205F, 0x205F), (0x3000, 0x3000)]

def isBlank (c : Char) : Bool :=
  blankRanges.any fun r => r.1 ≤ c.toNat && c.toNat ≤ r.2

/-- The four blanks of ASCII that `Char.isWhitespace` knows are blank here too. -/
theorem isBlank_of_isWhitespace {c : Char} (h : c.isWhitespace = true) : isBlank c = true := by
  simp only [Char.isWhitespace, Bool.or_eq_true, decide_eq_true_eq] at h
  rcases h with ((rfl | rfl) | rfl) | rfl <;> decide

def dropBlanks : List Char → List Char
  | [] => []
  | c :: cs => if isBlank c then dropBlanks cs else c :: cs

theorem dropBlanks_length_le : ∀ cs : List Char, (dropBlanks cs).length ≤ cs.length
  | [] => by simp [dropBlanks]
  | c :: cs => by
    have := dropBlanks_length_le cs
    unfold dropBlanks
    split
    · simp only [List.length_cons]; omega
    · simp

/-- What is left begins with a character that is not blank. -/
theorem isBlank_of_dropBlanks : ∀ {cs : List Char} {c : Char} {ds : List Char},
    dropBlanks cs = c :: ds → isBlank c = false
  | [], _, _, h => by simp [dropBlanks] at h
  | x :: xs, c, ds, h => by
    unfold dropBlanks at h
    split at h
    · exact isBlank_of_dropBlanks h
    · cases h
      simp_all

end CommandConsole
