/-
# What a step of the reader comes to

A value that ends in a container is put into it by the character behind it: the
container goes on, or it is closed and is a value itself. Which of them depends
on the container and the character alone. A value that begins is a container, a
quoted scalar or a bareword, and its first character tells which.

Key definitions: `OpenContainer.After`, `OpenContainer.after?`.
Key theorems: `Reading.endValue_go_iff`, `Reading.beginValue_go_cases`.
-/
import CommandConsole.Proofs.Literal.Reading
import CommandConsole.Proofs.Text.Reach

namespace CommandConsole

/-- What a container comes to when a value ends in it. -/
inductive OpenContainer.After where
  /-- It waits for the next part. -/
  | goesOn (top : OpenContainer)
  /-- It is complete, up to an offset. -/
  | closed (whole : Nat → Literal)

/-- What the character behind the value `v` makes of the container. -/
def OpenContainer.after? (v : Literal) : OpenContainer → Char → Option After
  | .list start items, ',' => some (.goesOn (.list start (items ++ [v])))
  | .list start items, ']' => some (.closed fun stop => .list (items ++ [v]) ⟨start, stop⟩)
  | .mapKey start entries, '=' => some (.goesOn (.mapValue start entries v))
  | .mapValue start entries key, ',' => some (.goesOn (.mapKey start (entries ++ [(key, v)])))
  | .mapValue start entries key, '\x7d' =>
    some (.closed fun stop => .map (entries ++ [(key, v)]) ⟨start, stop⟩)
  | _, _ => none

namespace OpenContainer.After

variable {outer : List OpenContainer} {last : Option ScalarTrace} {c : Cursor}

/-- The reading at the cursor behind that character. -/
def reading (k : After) (outer : List OpenContainer) (last : Option ScalarTrace) (c : Cursor) :
    Reading :=
  match k with
  | .goesOn top => ⟨.value, top :: outer, last, c.skipBlanks⟩
  | .closed whole => ⟨.after (whole c.offset), outer, last, c⟩

theorem reaches (k : After) : c.Reaches (k.reading outer last c).cursor := by
  cases k with
  | goesOn top => exact .skipBlanks c
  | closed whole => exact .refl c

end OpenContainer.After

namespace Reading

variable {limit : Nat} {r next : Reading}

/-- **A value is put into a container by the character behind it**, and by nothing else. -/
theorem endValue_go_iff {v : Literal} : r.endValue v = .go next ↔
    ∃ top outer ch k, r.opened = top :: outer ∧ r.cursor.skipBlanks.peek = some ch ∧
      top.after? v ch = some k ∧ next = k.reading outer r.lastScalar r.cursor.skipBlanks.advance := by
  constructor
  · intro h
    cases ho : r.opened with
    | nil => simp [endValue, ho] at h
    | cons top outer =>
      unfold endValue at h
      rw [ho] at h
      cases top <;> dsimp only [expect, failAt] at h <;> repeat' split at h
      all_goals first
        | contradiction
        | (cases h
           exact ⟨_, _, _, _, rfl, by assumption, rfl, rfl⟩)
  · rintro ⟨top, outer, ch, k, ho, hp, ht, rfl⟩
    unfold endValue
    rw [ho]
    unfold OpenContainer.after? at ht
    split at ht
    all_goals first
      | contradiction
      | (cases ht
         simp [hp, OpenContainer.After.reading])

/-- **What a value is** is told by its first character: a container, whatever else is being read, a
quoted scalar, or a bareword. -/
theorem beginValue_go_cases {ch : Char} {cs : List Char} (hrest : r.cursor.rest = ch :: cs)
    (h : r.beginValue limit = .go next) :
    (∃ (fresh : Nat → OpenContainer) (closer : Char) (close : Span → Literal),
      ∀ {q : Reading} {ds : List Char}, q.cursor.rest = ch :: ds →
        q.beginValue limit = q.enter limit (fresh q.cursor.offset) closer close) ∨
    (ch = '"' ∧ (scanQuoted r.cursor.advance.offset cs).closed = true ∧
      next = r.acceptScalar (scanQuoted r.cursor.advance.offset cs)) ∨
    (¬(r.opened ≠ [] ∧ Place.nested.ends ch = true) ∧ opensGroup ch = false ∧
      next = r.acceptBareword) := by
  by_cases hends : r.opened ≠ [] ∧ Place.nested.ends ch = true
  · unfold beginValue at h
    rw [Cursor.peek_of_rest hrest] at h
    dsimp only at h
    rw [if_pos hends] at h
    cases h
  by_cases hbrace : ch = '\x7b'
  · subst hbrace
    exact .inl ⟨fun start => .mapKey start [], '\x7d', .map [], fun hq => beginValue_brace hq⟩
  by_cases hbracket : ch = '['
  · subst hbracket
    exact .inl ⟨fun start => .list start [], ']', .list [], fun hq => beginValue_bracket hq⟩
  by_cases hquote : ch = '"'
  · subst hquote
    rw [beginValue_quote hrest] at h
    dsimp only at h
    split at h
    · rename_i hclosed
      cases h
      exact .inr (.inl ⟨rfl, hclosed, rfl⟩)
    · cases h
  · have ho : opensGroup ch = false := by simp [opensGroup, hbrace, hbracket, hquote]
    rw [beginValue_word (Cursor.peek_of_rest hrest) hends ho] at h
    cases h
    exact .inr (.inr ⟨hends, ho, rfl⟩)

end Reading
end CommandConsole
