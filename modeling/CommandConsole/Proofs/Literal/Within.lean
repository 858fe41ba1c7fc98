/-
# Values that end within a text

A value that is read in a text, and ends before some part of it, is read in the
text without that part. No step that leads to the value goes beyond its end, so
none of them sees whether anything follows, blanks included.

Key theorems: `Reading.step_of_extend`, `Reading.run_of_extend`, `readValue_of_extend`.
-/
import CommandConsole.Proofs.Literal.Beginning
import CommandConsole.Proofs.Literal.Step

namespace CommandConsole

/-! ### Characters that are skipped -/

namespace Cursor

variable {p : Char → Bool} {c : Cursor} {ds : List Char}

/-- Skipping that has not reached the second part of a text stops in the first. -/
theorem skipFrom_of_extend : ∀ {offset : Nat} {cs : List Char},
    ds.length ≤ (skipFrom p offset (cs ++ ds)).rest.length →
      skipFrom p offset (cs ++ ds) = (skipFrom p offset cs).extend ds
  | offset, [], h => by
    cases ds with
    | nil => rfl
    | cons d ds =>
      by_cases hd : p d = true
      · rw [List.nil_append, skipFrom, if_pos hd] at h
        have hle := skipFrom_rest_length_le p (offset + d.utf8Size) ds
        simp only [List.length_cons] at h
        omega
      · simp [skipFrom, hd, extend]
  | offset, d :: cs, h => by
    by_cases hd : p d = true
    · rw [List.cons_append, skipFrom, if_pos hd] at h
      rw [List.cons_append, skipFrom, if_pos hd, skipFrom, if_pos hd, skipFrom_of_extend h]
    · rw [List.cons_append, skipFrom, if_neg hd, skipFrom, if_neg hd]
      rfl

theorem skipBlanks_of_extend (hl : ds.length ≤ (c.extend ds).skipBlanks.rest.length) :
    (c.extend ds).skipBlanks = c.skipBlanks.extend ds :=
  skipFrom_of_extend hl

/-- A character that is read before the second part of a text stands in the first. -/
theorem peek_of_extend {ch : Char} (hp : (c.extend ds).peek = some ch)
    (hl : ds.length ≤ (c.extend ds).advance.rest.length) :
    c.peek = some ch ∧ (c.extend ds).advance = c.advance.extend ds := by
  have hlt := advance_rest_length_lt hp
  have hne : c.rest ≠ [] := by
    intro hempty
    rw [extend_rest, hempty, List.nil_append] at hlt
    omega
  exact ⟨by rwa [peek_extend hne] at hp, advance_extend hne⟩

/-- The same for one behind blanks. -/
theorem peek_skipBlanks_of_extend {ch : Char} (hp : (c.extend ds).skipBlanks.peek = some ch)
    (hl : ds.length ≤ (c.extend ds).skipBlanks.advance.rest.length) :
    c.skipBlanks.peek = some ch ∧
      (c.extend ds).skipBlanks.advance = c.skipBlanks.advance.extend ds := by
  have hlt := advance_rest_length_lt hp
  have hskip : (c.extend ds).skipBlanks = c.skipBlanks.extend ds :=
    skipBlanks_of_extend (by omega)
  rw [hskip] at hp hl ⊢
  exact peek_of_extend hp hl

end Cursor

/-! ### Steps and runs -/

theorem OpenContainer.After.reading_of_extend {k : After} {outer : List OpenContainer}
    {last : Option ScalarTrace} {c : Cursor} {ds : List Char}
    (hl : ds.length ≤ (k.reading outer last (c.extend ds)).cursor.rest.length) :
    k.reading outer last (c.extend ds) = (k.reading outer last c).extend ds := by
  cases k with
  | goesOn top =>
    rw [reading, reading, Cursor.skipBlanks_of_extend hl]
    rfl
  | closed whole => rfl

namespace Reading

variable {limit : Nat} {r next : Reading} {ds : List Char}

theorem acceptBareword_of_extend
    (hl : ds.length ≤ (r.extend ds).acceptBareword.cursor.rest.length) :
    (r.extend ds).acceptBareword = r.acceptBareword.extend ds := by
  have hscan : scanBareword r.place 0 r.cursor.offset (r.cursor.rest ++ ds) =
      (scanBareword r.place 0 r.cursor.offset r.cursor.rest).extend ds := scanBareword_append hl
  simp only [acceptBareword, extend_cursor, extend_place, Cursor.extend_offset, Cursor.extend_rest,
    hscan]
  rfl

theorem enter_of_extend {fresh : OpenContainer} {closer ch : Char} {close : Span → Literal}
    (hc : (r.extend ds).cursor.peek = some ch)
    (h : (r.extend ds).enter limit fresh closer close = .go next)
    (hl : ds.length ≤ next.cursor.rest.length) :
    ∃ next', next = next'.extend ds ∧ r.enter limit fresh closer close = .go next' := by
  rw [extend_cursor] at hc
  by_cases hd : limit ≤ r.depth
  · rw [enter_full (r := r.extend ds) hd] at h
    cases h
  have hd : r.depth < limit := Nat.lt_of_not_le hd
  have hblanks := (r.cursor.extend ds).advance.skipBlanks_rest_length_le
  by_cases hcloser : (r.extend ds).cursor.advance.skipBlanks.peek = some closer
  · -- nothing is in the container
    rw [enter_empty (r := r.extend ds) hd hcloser] at h
    cases h
    rw [extend_cursor] at hcloser hl ⊢
    have hlt := Cursor.advance_rest_length_lt hcloser
    obtain ⟨-, hadvance⟩ := Cursor.peek_of_extend hc (by dsimp only at hl; omega)
    rw [hadvance] at hcloser hl ⊢
    obtain ⟨hcloser', hstop⟩ := Cursor.peek_skipBlanks_of_extend hcloser hl
    rw [hstop]
    exact ⟨_, rfl, enter_empty hd hcloser' fresh close⟩
  · rw [enter_inside (r := r.extend ds) hd hcloser] at h
    cases h
    rw [extend_cursor] at hcloser hl ⊢
    obtain ⟨-, hadvance⟩ := Cursor.peek_of_extend hc (by dsimp only at hl; omega)
    rw [hadvance] at hcloser hl ⊢
    have hskip : (r.cursor.advance.extend ds).skipBlanks = r.cursor.advance.skipBlanks.extend ds :=
      Cursor.skipBlanks_of_extend hl
    rw [hskip] at hcloser ⊢
    refine ⟨_, rfl, enter_inside hd (fun hp => hcloser ?_) fresh close⟩
    rwa [Cursor.peek_extend]
    intro hempty
    rw [Cursor.peek_of_rest_nil hempty] at hp
    cases hp

/-- At the end of the text only the empty bareword of the top level begins. -/
theorem beginValue_behind {d : Char} (hrest : r.cursor.rest = [])
    (h : (r.extend (d :: ds)).beginValue limit = .go next)
    (hl : (d :: ds).length ≤ next.cursor.rest.length) :
    ∃ next', next = next'.extend (d :: ds) ∧ r.beginValue limit = .go next' := by
  have hnew : (r.extend (d :: ds)).cursor.rest = d :: ds := by
    rw [extend_cursor, Cursor.extend_rest, hrest, List.nil_append]
  by_cases hb : isBlank d = true
  · obtain ⟨he, -, ho⟩ := of_not_mem_structuralChars (not_mem_structuralChars_of_isBlank hb)
    rw [beginValue_char hnew he ho] at h
    cases h
    by_cases hopened : r.opened = []
    · refine ⟨r.acceptBareword, acceptBareword_of_extend hl, ?_⟩
      unfold beginValue
      rw [Cursor.peek_of_rest_nil hrest]
      exact if_pos hopened
    · have hplace : (r.extend (d :: ds)).place = .nested := if_neg hopened
      have hends : Place.nested.ends d = false := he
      have hlt := scanBareword_length_lt ds (r.extend (d :: ds)).cursor.offset hends
      simp only [acceptBareword, acceptScalar, hplace, hnew] at hl
      omega
  · have hlt := beginValue_rest_length_lt (Cursor.peek_of_rest hnew) (by simpa using hb) h
    rw [hnew] at hlt
    omega

theorem beginValue_of_extend (h : (r.extend ds).beginValue limit = .go next)
    (hl : ds.length ≤ next.cursor.rest.length) :
    ∃ next', next = next'.extend ds ∧ r.beginValue limit = .go next' := by
  cases ds with
  | nil => exact ⟨next, (extend_nil next).symm, by rwa [extend_nil] at h⟩
  | cons d ds =>
    cases hrest : r.cursor.rest with
    | nil => exact beginValue_behind hrest h hl
    | cons ch cs =>
      have hnew : (r.extend (d :: ds)).cursor.rest = ch :: (cs ++ d :: ds) := by
        rw [extend_cursor, Cursor.extend_rest, hrest, List.cons_append]
      rcases beginValue_go_cases hnew h with
        ⟨fresh, closer, close, hbegins⟩ | ⟨rfl, hclosed, rfl⟩ | ⟨hends, ho, rfl⟩
      · rw [hbegins hnew] at h
        rw [hbegins hrest]
        exact enter_of_extend (Cursor.peek_of_rest hnew) h hl
      · have hadvance : (r.extend (d :: ds)).cursor.advance = r.cursor.advance.extend (d :: ds) :=
          Cursor.advance_extend (by simp [hrest])
        rw [hadvance, Cursor.extend_offset] at hl ⊢
        -- a closing quote in the new part would take the reading there
        have hscan : (scanQuoted r.cursor.advance.offset cs).closed = true := by
          refine Bool.of_not_eq_false fun hopen => ?_
          have hbeyond : (scanQuoted r.cursor.advance.offset (cs ++ d :: ds)).after.rest.length ≤
              ds.length := scanQuoted_beyond d ds hopen
          simp only [acceptScalar, List.length_cons] at hl
          omega
        rw [scanQuoted_append _ hscan, beginValue_quote hrest]
        exact ⟨r.acceptScalar (scanQuoted r.cursor.advance.offset cs), rfl, if_pos hscan⟩
      · exact ⟨r.acceptBareword, acceptBareword_of_extend hl,
          beginValue_word (Cursor.peek_of_rest hrest) hends ho⟩

theorem endValue_of_extend {v : Literal} (h : (r.extend ds).endValue v = .go next)
    (hl : ds.length ≤ next.cursor.rest.length) :
    ∃ next', next = next'.extend ds ∧ r.endValue v = .go next' := by
  obtain ⟨top, outer, ch, k, ho, hp, ht, rfl⟩ := endValue_go_iff.mp h
  have hbehind : ds.length ≤ (r.cursor.extend ds).skipBlanks.advance.rest.length :=
    Nat.le_trans hl k.reaches.rest_length_le
  obtain ⟨hp', hadvance⟩ := Cursor.peek_skipBlanks_of_extend hp hbehind
  rw [extend_cursor, hadvance] at hl ⊢
  exact ⟨_, k.reading_of_extend hl, endValue_go_iff.mpr ⟨top, outer, ch, k, ho, hp', ht, rfl⟩⟩

/-- **A step that stays in the first part of a text does not depend on the second.** -/
theorem step_of_extend (h : (r.extend ds).step limit = .go next)
    (hl : ds.length ≤ next.cursor.rest.length) :
    ∃ next', next = next'.extend ds ∧ r.step limit = .go next' := by
  unfold step at h ⊢
  rw [extend_phase] at h
  split at h
  · exact beginValue_of_extend h hl
  · exact endValue_of_extend h hl

/-- A reading is finished in a text wherever the text ends. -/
theorem step_done_of_extend {v : Literal} {c : Cursor} (h : (r.extend ds).step limit = .done v c) :
    c = r.cursor.extend ds ∧ r.step limit = .done v r.cursor := by
  have hc : c = (r.extend ds).cursor := step_done_rest h
  refine ⟨hc, ?_⟩
  unfold step at h ⊢
  rw [extend_phase] at h
  split at h
  · exact absurd h (beginValue_ne_done _)
  · unfold endValue at h ⊢
    rw [extend_opened] at h
    dsimp only [expect, failAt] at h
    repeat' split at h
    all_goals first
      | contradiction
      | (cases h
         simp [*])

/-- **A value that is read in a text and ends before some part of it** is read without this part. -/
theorem run_of_extend {v : Literal} {stop : Cursor}
    (h : (r.extend ds).run limit = .ok (v, stop)) (hl : ds.length ≤ stop.rest.length) :
    ∃ stop', stop = stop'.extend ds ∧ r.run limit = .ok (v, stop') := by
  generalize hq : r.extend ds = q at h
  fun_induction q.run limit generalizing r with
  | case1 q next hs ih =>
    subst hq
    have hle := run_rest_length_le h
    obtain ⟨next', rfl, hs'⟩ := step_of_extend hs (Nat.le_trans hl hle)
    rw [run_go hs']
    exact ih rfl h
  | case2 q w c hs =>
    subst hq
    cases h
    obtain ⟨rfl, hs'⟩ := step_done_of_extend hs
    exact ⟨r.cursor, rfl, run_done hs'⟩
  | case3 q f hs => cases h

end Reading

/-- A value that ends before the second part of a text is read in the first part alone. -/
theorem readValue_of_extend {limit : Nat} {c stop : Cursor} {ds : List Char} {v : Literal}
    (h : readValue limit (c.extend ds) = .ok (v, stop)) (hl : ds.length ≤ stop.rest.length) :
    ∃ stop', stop = stop'.extend ds ∧ readValue limit c = .ok (v, stop') :=
  Reading.run_of_extend (r := .start c) h hl

end CommandConsole
