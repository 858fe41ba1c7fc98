/-
# A failure depends on the text before it only

A reading of a text and a reading of a longer one go the same steps until one
of them reads behind the end of the shorter text. If the longer text fails at
the end of the shorter one because it expects something else there, then the
shorter one fails in the same way: what a bareword has looked at behind this
place has not changed what was read before it.

Key definitions: `Reading.extend`, `Reading.Stands`, `Reading.Continues`, `Reading.Exceeds`.
Key theorems: `Reading.stands`, `Reading.continues`, `Reading.run_extend`,
`parseLiteral_textBefore`.
-/
import CommandConsole.Proofs.Literal.Layout
import CommandConsole.Proofs.Literal.Lookahead
import CommandConsole.Proofs.Literal.RoundTrip

namespace CommandConsole

/-- What the grammar may expect: at least one thing, and of the characters only those that
separate, close or end a quoted scalar. -/
def ExpectedTokens.OfGrammar (e : ExpectedTokens) : Prop :=
  e ≠ .endOfInput ∧ ∀ ch ∈ e.chars, ch ∈ [',', '=', '\x7d', ']', '"']

/-- The characters that may follow a value in the container. -/
def OpenContainer.followers : OpenContainer → List Char
  | .list .. => [',', ']']
  | .mapKey .. => ['=']
  | .mapValue .. => [',', '\x7d']

theorem OpenContainer.ofGrammar_followers (o : OpenContainer) :
    ExpectedTokens.OfGrammar ⟨o.followers, false⟩ := by
  cases o <;> simp [ExpectedTokens.OfGrammar, ExpectedTokens.endOfInput, followers]

/-- The reading with more text behind the text that it reads. -/
def Reading.extend (r : Reading) (ds : List Char) : Reading :=
  { r with cursor := r.cursor.extend ds }

def Move.extend (m : Move) (ds : List Char) : Move :=
  match m with
  | .go next => .go (next.extend ds)
  | .done v rest => .done v (rest.extend ds)
  | .stuck failure => .stuck failure

namespace Reading

/-- The offset at the end of the text. -/
def textEnd (r : Reading) : Nat := r.cursor.offset + byteLength r.cursor.rest

variable {limit : Nat} {r next : Reading} {ds : List Char}

@[simp] theorem extend_nil (r : Reading) : r.extend [] = r := by simp [extend]

@[simp] theorem extend_phase : (r.extend ds).phase = r.phase := rfl

@[simp] theorem extend_opened : (r.extend ds).opened = r.opened := rfl

@[simp] theorem extend_lastScalar : (r.extend ds).lastScalar = r.lastScalar := rfl

@[simp] theorem extend_cursor : (r.extend ds).cursor = r.cursor.extend ds := rfl

@[simp] theorem extend_depth : (r.extend ds).depth = r.depth := rfl

@[simp] theorem extend_frames : (r.extend ds).frames = r.frames := rfl

@[simp] theorem extend_place : (r.extend ds).place = r.place := rfl

@[simp] theorem extend_freshCloser : (r.extend ds).freshCloser = r.freshCloser := rfl

@[simp] theorem textEnd_extend : (r.extend ds).textEnd = r.textEnd + byteLength ds := by
  simp [textEnd, Nat.add_assoc]

end Reading

theorem Move.extend_nil (m : Move) : m.extend [] = m := by
  cases m <;> simp [Move.extend]

namespace Reading

variable {limit : Nat} {r next : Reading} {ds : List Char}

/-! ### The steps of a reading and what follows the text -/

/-- A value that is followed by something in the text goes where it belongs, whatever follows. -/
theorem endValue_extend (ht : dropBlanks ds = ds) (hne : dropBlanks r.cursor.rest ≠ [])
    (v : Literal) : (r.extend ds).endValue v = (r.endValue v).extend ds := by
  have hrest : r.cursor.skipBlanks.rest ≠ [] := by rwa [Cursor.skipBlanks_rest]
  unfold endValue
  simp only [extend_opened, extend_lastScalar, extend_cursor, Cursor.skipBlanks_extend ht,
    Cursor.peek_extend hrest, Cursor.advance_extend hrest]
  repeat' split
  all_goals rfl

/-- A container whose bracket is followed by something in the text is opened, whatever follows. -/
theorem enter_extend (ht : dropBlanks ds = ds) (hne : r.cursor.rest ≠ [])
    (hinside : dropBlanks r.cursor.rest.tail ≠ []) (fresh : OpenContainer) (closer : Char)
    (close : Span → Literal) :
    (r.extend ds).enter limit fresh closer close = (r.enter limit fresh closer close).extend ds := by
  have hrest : r.cursor.advance.skipBlanks.rest ≠ [] := by
    rwa [Cursor.skipBlanks_rest, Cursor.advance_rest]
  unfold enter
  simp only [extend_depth, extend_opened, extend_cursor, Cursor.advance_extend hne,
    Cursor.skipBlanks_extend ht, Cursor.peek_extend hrest, Cursor.advance_extend hrest]
  repeat' split
  all_goals rfl

/-- Where a reading stands: what its next step is if more text follows. -/
inductive Stands (limit : Nat) (r : Reading) : Prop
  /-- The step does not see the end of the text. -/
  | settled (h : ∀ ds, dropBlanks ds = ds → (r.extend ds).step limit = (r.step limit).extend ds)
      (hstuck : ∀ f e, r.step limit = .stuck f → f.kind = .tokenExpected e →
        f.position < r.textEnd)
  /-- A bareword begins. -/
  | bareword (hp : r.phase = .value) (hne : r.cursor.rest ≠ [])
      (ho : ∀ ch ∈ r.cursor.peek, opensGroup ch = false)
      (h : ∀ ds, (r.extend ds).step limit = .go (r.extend ds).acceptBareword)
  /-- A container begins, and the text ends inside it. -/
  | entering {fresh : OpenContainer} {closer : Char} {close : Span → Literal}
      (hp : r.phase = .value) (hd : r.depth < limit) (hfresh : fresh.freshCloser = [closer])
      (hcloser : closer = ']' ∨ closer = '\x7d') (hne : r.cursor.rest ≠ [])
      (hrest : dropBlanks r.cursor.rest.tail = [])
      (h : ∀ ds, (r.extend ds).step limit = (r.extend ds).enter limit fresh closer close)
  /-- The text ends in a quoted scalar. -/
  | quoted {cs : List Char} (hp : r.phase = .value) (hrest : r.cursor.rest = '"' :: cs)
      (hopen : (scanQuoted r.cursor.advance.offset cs).closed = false)
  /-- The text ends behind a value in a container. -/
  | behind {v : Literal} (hp : r.phase = .after v) (ho : r.opened ≠ [])
      (hrest : dropBlanks r.cursor.rest = [])
  /-- The text ends before a value. -/
  | before (hp : r.phase = .value) (hrest : r.cursor.rest = [])

theorem offset_lt_textEnd {c : Cursor} (h : r.cursor.Reaches c) (hne : c.rest ≠ []) :
    c.offset < r.textEnd := by
  obtain ⟨ch, cs, hc⟩ := List.exists_cons_of_ne_nil hne
  have hend := h.end_eq
  have hpos := ch.utf8Size_pos
  rw [hc, byteLength_cons] at hend
  unfold textEnd
  omega

/-- A value in a container goes on with each of the characters that may follow it. -/
theorem step_follows {v : Literal} {top : OpenContainer} {outer : List OpenContainer}
    (hp : r.phase = .after v) (ho : r.opened = top :: outer) {ch : Char} {cs : List Char}
    (hch : ch ∈ top.followers) (hc : dropBlanks r.cursor.rest = ch :: cs) :
    ∃ next, r.step limit = .go next ∧ next.cursor.rest.length ≤ cs.length := by
  have hadvance : r.cursor.skipBlanks.advance.rest = cs := by
    rw [Cursor.advance_rest, Cursor.skipBlanks_rest, hc, List.tail_cons]
  have hblanks := r.cursor.skipBlanks.advance.skipBlanks_rest_length_le
  rw [hadvance] at hblanks
  have hclose := Nat.le_of_eq (congrArg List.length hadvance)
  cases top <;> simp only [OpenContainer.followers, List.mem_cons, List.not_mem_nil, or_false] at hch
  case list =>
    rcases hch with rfl | rfl
    · exact ⟨_, step_list_comma hp ho hc, hblanks⟩
    · exact ⟨_, step_list_close hp ho hc, hclose⟩
  case mapKey =>
    subst hch
    exact ⟨_, step_map_equals hp ho hc, hblanks⟩
  case mapValue =>
    rcases hch with rfl | rfl
    · exact ⟨_, step_map_comma hp ho hc, hblanks⟩
    · exact ⟨_, step_map_close hp ho hc, hclose⟩

/-- Nothing else may follow it. -/
theorem endValue_refused {top : OpenContainer} {outer : List OpenContainer}
    (ho : r.opened = top :: outer)
    (hpeek : ∀ ch ∈ top.followers, r.cursor.skipBlanks.peek ≠ some ch) (v : Literal) :
    r.endValue v = r.expect top.followers false r.cursor.skipBlanks := by
  unfold endValue
  rw [ho]
  cases top <;> simp_all [OpenContainer.followers]

theorem endValue_stuck {v : Literal} {f : LiteralFailure} (h : r.endValue v = .stuck f) :
    ∃ top outer, r.opened = top :: outer ∧ f.position = r.cursor.skipBlanks.offset ∧
      f.kind = .tokenExpected ⟨top.followers, false⟩ := by
  cases ho : r.opened with
  | nil => simp [endValue, ho] at h
  | cons top outer =>
    refine ⟨top, outer, rfl, ?_⟩
    unfold endValue at h
    rw [ho] at h
    cases top <;> dsimp only [expect, failAt] at h <;> repeat' split at h
    all_goals first
      | contradiction
      | (cases h
         exact ⟨rfl, rfl⟩)

theorem enter_stuck {fresh : OpenContainer} {closer : Char} {close : Span → Literal}
    {f : LiteralFailure} (h : r.enter limit fresh closer close = .stuck f) :
    f.position = r.cursor.offset ∧ f.kind = .nestingLimitExceeded limit := by
  unfold enter at h
  split at h
  · cases h
    exact ⟨rfl, rfl⟩
  · dsimp only at h
    split at h <;> cases h

section Value

variable (hp : r.phase = .value) {ch : Char} {cs : List Char} (hrest : r.cursor.rest = ch :: cs)

include hp in
theorem step_extend_value (limit : Nat) (ds : List Char) :
    (r.extend ds).step limit = (r.extend ds).beginValue limit := by
  rw [step, extend_phase, hp]

include hp in
/-- A container either meets the limit, or the text ends in it, or it does not see the end. -/
theorem stands_enter {fresh : OpenContainer} {closer : Char} {close : Span → Literal}
    (hne : r.cursor.rest ≠ []) (hfresh : fresh.freshCloser = [closer])
    (hcloser : closer = ']' ∨ closer = '\x7d')
    (h : ∀ ds, (r.extend ds).beginValue limit = (r.extend ds).enter limit fresh closer close) :
    r.Stands limit := by
  have hstep : ∀ ds, (r.extend ds).step limit = (r.extend ds).enter limit fresh closer close :=
    fun ds => (step_extend_value hp limit ds).trans (h ds)
  have h0 := hstep []
  rw [extend_nil] at h0
  have hstuck : ∀ f e, r.step limit = .stuck f → f.kind = .tokenExpected e →
      f.position < r.textEnd := by
    intro f e hf hk
    rw [h0] at hf
    rw [(enter_stuck hf).2] at hk
    cases hk
  by_cases hfull : limit ≤ r.depth
  · refine .settled (fun ds _ => ?_) hstuck
    rw [hstep, h0, enter_full hfull, enter_full (r := r.extend ds) hfull]
    rfl
  by_cases hinside : dropBlanks r.cursor.rest.tail = []
  · exact .entering hp (Nat.lt_of_not_le hfull) hfresh hcloser hne hinside hstep
  · refine .settled (fun ds ht => ?_) hstuck
    rw [hstep, h0, enter_extend ht hne hinside]

include hp hrest in
theorem stands_value (limit : Nat) : r.Stands limit := by
  have hne : r.cursor.rest ≠ [] := by simp [hrest]
  have hextend : ∀ ds, (r.extend ds).cursor.rest = ch :: (cs ++ ds) := fun ds => by
    rw [extend_cursor, Cursor.extend_rest, hrest, List.cons_append]
  have hpeek : ∀ ds, (r.extend ds).cursor.peek = some ch := fun ds =>
    Cursor.peek_of_rest (hextend ds)
  have hstep := step_extend_value hp limit
  have h0 := hstep []
  rw [extend_nil] at h0
  by_cases hends : r.opened ≠ [] ∧ Place.nested.ends ch = true
  · have hstuck : ∀ ds, (r.extend ds).step limit = r.expect r.freshCloser true r.cursor := by
      intro ds
      rw [hstep]
      unfold beginValue
      rw [hpeek]
      exact if_pos hends
    have hstuck0 := hstuck []
    rw [extend_nil] at hstuck0
    refine .settled (fun ds _ => ?_) fun f e hf _ => ?_
    · rw [hstuck, hstuck0]
      rfl
    · rw [hstuck0] at hf
      cases hf
      exact offset_lt_textEnd (.refl _) hne
  by_cases hbrace : ch = '\x7b'
  · subst hbrace
    have henter : ∀ ds, (r.extend ds).beginValue limit =
        (r.extend ds).enter limit (.mapKey r.cursor.offset []) '\x7d' (.map []) :=
      fun ds => beginValue_brace (hextend ds)
    exact stands_enter hp hne rfl (.inr rfl) henter
  by_cases hbracket : ch = '['
  · subst hbracket
    have henter : ∀ ds, (r.extend ds).beginValue limit =
        (r.extend ds).enter limit (.list r.cursor.offset []) ']' (.list []) :=
      fun ds => beginValue_bracket (hextend ds)
    exact stands_enter hp hne rfl (.inl rfl) henter
  by_cases hquote : ch = '"'
  · subst hquote
    by_cases hclosed : (scanQuoted r.cursor.advance.offset cs).closed = true
    · have hgo : ∀ ds, (r.extend ds).step limit = .go ((r.extend ds).acceptScalar
          ((scanQuoted r.cursor.advance.offset cs).extend ds)) := by
        intro ds
        have hclosed' : ((scanQuoted r.cursor.advance.offset cs).extend ds).closed = true := hclosed
        rw [hstep, beginValue_quote (hextend ds), extend_cursor, Cursor.advance_extend hne,
          Cursor.extend_offset, scanQuoted_append ds hclosed]
        exact if_pos hclosed'
      have hgo0 : r.step limit = .go (r.acceptScalar (scanQuoted r.cursor.advance.offset cs)) := by
        rw [h0, beginValue_quote hrest]
        exact if_pos hclosed
      refine .settled (fun ds _ => ?_) fun f e hf _ => ?_
      · rw [hgo, hgo0]
        rfl
      · rw [hgo0] at hf
        cases hf
    · exact .quoted hp hrest (by simpa using hclosed)
  · have hopens : ∀ x ∈ r.cursor.peek, opensGroup x = false := by
      intro x hx
      rw [Cursor.peek_of_rest hrest] at hx
      cases hx
      simp [opensGroup, hbrace, hbracket, hquote]
    refine .bareword hp hne hopens fun ds => ?_
    rw [hstep]
    unfold beginValue
    rw [hpeek]
    simp [hends, hbrace, hbracket, hquote]

end Value

/-- **Where a reading stands** follows from what comes next in the text. -/
theorem stands (limit : Nat) (r : Reading) : r.Stands limit := by
  cases hp : r.phase with
  | value =>
    cases hrest : r.cursor.rest with
    | nil => exact .before hp hrest
    | cons ch cs => exact stands_value hp hrest limit
  | after v =>
    have hstep : ∀ ds, (r.extend ds).step limit = (r.extend ds).endValue v := fun ds => by
      rw [step, extend_phase, hp]
    have h0 := hstep []
    rw [extend_nil] at h0
    by_cases ho : r.opened = []
    · have hdone : r.step limit = .done v r.cursor := by simp [h0, endValue, ho]
      refine .settled (fun ds _ => ?_) fun f e h => ?_
      · rw [hdone, hstep]
        simp [endValue, ho, Move.extend]
      · rw [hdone] at h
        cases h
    by_cases hrest : dropBlanks r.cursor.rest = []
    · exact .behind hp ho hrest
    · refine .settled (fun ds ht => by rw [hstep, h0, endValue_extend ht hrest]) ?_
      intro f e h _
      rw [h0] at h
      obtain ⟨-, -, -, hposition, -⟩ := endValue_stuck h
      rw [hposition]
      exact offset_lt_textEnd (.skipBlanks _) (by rwa [Cursor.skipBlanks_rest])

/-- Before a character, a value cannot begin in three cases: the character ends the barewords of
the container, it opens one container too many, or it is a quote and there is no other. -/
theorem beginValue_stuck {ch : Char} {cs : List Char} {f : LiteralFailure}
    (hrest : r.cursor.rest = ch :: cs) (h : r.beginValue limit = .stuck f) :
    (r.opened ≠ [] ∧ Place.nested.ends ch = true ∧
        f = ⟨.tokenExpected ⟨r.freshCloser, true⟩, r.cursor.offset, r.frames, r.lastScalar⟩) ∨
      ((ch = '\x7b' ∨ ch = '[') ∧ f.position = r.cursor.offset ∧
        f.kind = .nestingLimitExceeded limit) ∨
      (ch = '"' ∧ f.position = r.textEnd ∧ f.kind = .tokenExpected ⟨['"'], false⟩) := by
  unfold beginValue at h
  rw [Cursor.peek_of_rest hrest] at h
  dsimp only at h
  split at h
  · rename_i hends
    cases h
    exact .inl ⟨hends.1, hends.2, rfl⟩
  · split at h
    · rename_i hbrace
      exact .inr (.inl ⟨.inl hbrace, enter_stuck h⟩)
    · split at h
      · rename_i hbracket
        exact .inr (.inl ⟨.inr hbracket, enter_stuck h⟩)
      · split at h
        · rename_i hquote
          split at h
          · cases h
          · rename_i hopen
            cases h
            refine .inr (.inr ⟨hquote, ?_, rfl⟩)
            have hend := (scanQuoted_completed (eq_false_of_ne_true hopen)).1
            have hreach := (Cursor.Reaches.advance r.cursor).trans
              (scanQuoted_reaches r.cursor.advance.offset r.cursor.advance.rest).1
            have hposition := hreach.end_eq
            rw [hend, byteLength_nil] at hposition
            exact hposition
        · cases h

theorem ofGrammar_freshCloser (r : Reading) :
    ExpectedTokens.OfGrammar ⟨r.freshCloser, true⟩ := by
  refine ⟨by simp [ExpectedTokens.endOfInput], ?_⟩
  unfold freshCloser OpenContainer.freshCloser
  repeat' split
  all_goals simp

/-- Where a step fails: at a place that the reading reaches, before a character that is no
blank if something else is expected there. -/
theorem step_stuck {f : LiteralFailure} (h : r.step limit = .stuck f) :
    ∃ c, r.cursor.Reaches c ∧ f.position = c.offset ∧ ∀ e, f.kind = .tokenExpected e →
      dropBlanks c.rest = c.rest ∧ e.OfGrammar := by
  unfold step at h
  split at h
  · cases hrest : r.cursor.rest with
    | nil =>
      have hpeek : r.cursor.peek = none := by simp [Cursor.peek, hrest]
      unfold beginValue at h
      rw [hpeek] at h
      dsimp only at h
      split at h
      · cases h
      · cases h
        refine ⟨r.cursor, .refl _, rfl, fun e he => ⟨by simp [hrest, dropBlanks], ?_⟩⟩
        cases he
        exact ofGrammar_freshCloser r
    | cons ch cs =>
      rcases beginValue_stuck hrest h with ⟨-, hends, rfl⟩ | ⟨-, hp, hk⟩ | ⟨-, hp, hk⟩
      · refine ⟨r.cursor, .refl _, rfl, fun e he => ⟨?_, ?_⟩⟩
        · have hblank : isBlank ch = false := by
            simp only [Place.ends, List.contains_cons, List.contains_nil, Bool.or_eq_true,
              beq_iff_eq, Bool.or_false] at hends
            rcases hends with rfl | rfl | rfl | rfl <;> decide
          rw [hrest, dropBlanks_cons hblank]
        · cases he
          exact ofGrammar_freshCloser r
      · refine ⟨r.cursor, .refl _, hp, fun e he => ?_⟩
        rw [hk] at he
        cases he
      · refine ⟨⟨r.textEnd, []⟩, ⟨r.cursor.rest, by simp, rfl⟩, hp, fun e he => ⟨rfl, ?_⟩⟩
        rw [hk] at he
        cases he
        exact ⟨by simp [ExpectedTokens.endOfInput], by simp⟩
  · obtain ⟨top, outer, -, hp, hk⟩ := endValue_stuck h
    refine ⟨r.cursor.skipBlanks, .skipBlanks _, hp, fun e he => ⟨?_, ?_⟩⟩
    · rw [Cursor.skipBlanks_rest, dropBlanks_dropBlanks]
    · rw [hk] at he
      cases he
      exact top.ofGrammar_followers

/-! ### Steps in a longer text -/

/-- How the step of a reading goes if `ds` follows the text. -/
inductive Continues (limit : Nat) (r : Reading) (ds : List Char) : Prop
  | same (h : (r.extend ds).step limit = (r.step limit).extend ds)
  /-- It reads some of the new text. -/
  | beyond {next : Reading} (h : (r.extend ds).step limit = .go next)
      (hlt : next.cursor.rest.length < ds.length)
  /-- It expects something at the end of the new text. -/
  | short {f : LiteralFailure} {e : ExpectedTokens} (h : (r.extend ds).step limit = .stuck f)
      (hk : f.kind = .tokenExpected e) (hp : f.position = (r.extend ds).textEnd) (hne : ds ≠ [])
  /-- The new text begins with a bracket, which opens one container too many. -/
  | full {f : LiteralFailure} (h : (r.extend ds).step limit = .stuck f)
      (hk : f.kind = .nestingLimitExceeded limit) (hd : ds.head? = some '\x7b' ∨ ds.head? = some '[')

theorem continues_bareword (h : ∀ ds, (r.extend ds).step limit = .go (r.extend ds).acceptBareword)
    (ds : List Char) : r.Continues limit ds := by
  by_cases hle : ds.length ≤ (r.extend ds).acceptBareword.cursor.rest.length
  · have hscan : scanBareword r.place 0 r.cursor.offset (r.cursor.rest ++ ds) =
        (scanBareword r.place 0 r.cursor.offset r.cursor.rest).extend ds := scanBareword_append hle
    have h0 := h []
    rw [extend_nil] at h0
    refine .same ?_
    rw [h, h0, acceptBareword, extend_cursor, extend_place, Cursor.extend_offset,
      Cursor.extend_rest, hscan]
    rfl
  · exact .beyond (h ds) (Nat.lt_of_not_le hle)

theorem continues_entering {fresh : OpenContainer} {closer : Char} {close : Span → Literal}
    {d : Char} (hd : r.depth < limit) (hne : r.cursor.rest ≠ [])
    (hrest : dropBlanks r.cursor.rest.tail = [])
    (h : ∀ ds, (r.extend ds).step limit = (r.extend ds).enter limit fresh closer close)
    (ht : dropBlanks (d :: ds) = d :: ds) : r.Continues limit (d :: ds) := by
  have hinside : (r.extend (d :: ds)).cursor.advance.skipBlanks =
      r.cursor.advance.skipBlanks.extend (d :: ds) := by
    rw [extend_cursor, Cursor.advance_extend hne, Cursor.skipBlanks_extend ht]
  have hend : r.cursor.advance.skipBlanks.rest = [] := by
    rw [Cursor.skipBlanks_rest, Cursor.advance_rest, hrest]
  have hnew : (r.cursor.advance.skipBlanks.extend (d :: ds)).rest = d :: ds := by
    rw [Cursor.extend_rest, hend, List.nil_append]
  by_cases hc : d = closer
  · subst hc
    have hpeek : (r.extend (d :: ds)).cursor.advance.skipBlanks.peek = some d := by
      rw [hinside]
      exact Cursor.peek_of_rest hnew
    refine .beyond ((h _).trans (enter_empty (r := r.extend (d :: ds)) hd hpeek fresh close)) ?_
    rw [hinside, Cursor.advance_rest, hnew]
    exact Nat.lt_succ_self _
  · have hpeek : (r.extend (d :: ds)).cursor.advance.skipBlanks.peek ≠ some closer := by
      rw [hinside, Cursor.peek_of_rest hnew]
      simpa using hc
    have hpeek0 : r.cursor.advance.skipBlanks.peek ≠ some closer := by
      simp [Cursor.peek_of_rest_nil hend]
    have h0 := h []
    rw [extend_nil] at h0
    refine .same ?_
    rw [h, h0, enter_inside (r := r.extend (d :: ds)) hd hpeek, enter_inside hd hpeek0, hinside]
    rfl

theorem continues_quoted {cs : List Char} (d : Char) (ds : List Char) (hp : r.phase = .value)
    (hrest : r.cursor.rest = '"' :: cs)
    (hopen : (scanQuoted r.cursor.advance.offset cs).closed = false) :
    r.Continues limit (d :: ds) := by
  have hextend : (r.extend (d :: ds)).cursor.rest = '"' :: (cs ++ d :: ds) := by
    rw [extend_cursor, Cursor.extend_rest, hrest, List.cons_append]
  have hadvance : (r.extend (d :: ds)).cursor.advance.offset = r.cursor.advance.offset := by
    rw [extend_cursor, Cursor.advance_extend (by simp [hrest]), Cursor.extend_offset]
  have hbeyond := scanQuoted_beyond d ds hopen
  have hstep := (step_extend_value hp limit (d :: ds)).trans (beginValue_quote hextend)
  rw [hadvance] at hstep
  by_cases hclosed : (scanQuoted r.cursor.advance.offset (cs ++ d :: ds)).closed = true
  · exact .beyond (hstep.trans (if_pos hclosed)) (Nat.lt_succ_of_le hbeyond)
  · have hstuck := hstep.trans (if_neg hclosed)
    refine .short hstuck rfl ?_ (List.cons_ne_nil d ds)
    rw [step_extend_value hp] at hstuck
    rcases beginValue_stuck hextend hstuck with ⟨-, hends, -⟩ | ⟨-, -, hk⟩ | ⟨-, hposition, -⟩
    · exact absurd hends (by decide)
    · cases hk
    · exact hposition

theorem continues_behind {v : Literal} {d : Char} (hp : r.phase = .after v) (ho : r.opened ≠ [])
    (hrest : dropBlanks r.cursor.rest = []) (ht : dropBlanks (d :: ds) = d :: ds) :
    r.Continues limit (d :: ds) := by
  obtain ⟨top, outer, hopened⟩ := List.exists_cons_of_ne_nil ho
  have hskip : (r.extend (d :: ds)).cursor.skipBlanks = r.cursor.skipBlanks.extend (d :: ds) :=
    Cursor.skipBlanks_extend ht r.cursor
  have hend : r.cursor.skipBlanks.rest = [] := by rw [Cursor.skipBlanks_rest, hrest]
  have hnew : (r.extend (d :: ds)).cursor.skipBlanks.rest = d :: ds := by
    rw [hskip, Cursor.extend_rest, hend, List.nil_append]
  by_cases hd : d ∈ top.followers
  · rw [Cursor.skipBlanks_rest] at hnew
    have hp' : (r.extend (d :: ds)).phase = .after v := hp
    obtain ⟨next, hgo, hle⟩ := step_follows hp' hopened hd hnew
    exact .beyond hgo (Nat.lt_succ_of_le hle)
  · have hpeek : ∀ ch ∈ top.followers, (r.extend (d :: ds)).cursor.skipBlanks.peek ≠ some ch := by
      intro ch hch he
      rw [Cursor.peek_of_rest hnew] at he
      cases he
      exact hd hch
    have hpeek0 : ∀ ch ∈ top.followers, r.cursor.skipBlanks.peek ≠ some ch := by
      simp [Cursor.peek_of_rest_nil hend]
    have hstep : ∀ q : Reading, q.phase = .after v → q.step limit = q.endValue v := by
      intro q hq
      rw [step, hq]
    refine .same ?_
    rw [hstep r hp, hstep (r.extend (d :: ds)) hp, endValue_refused hopened hpeek0,
      endValue_refused (r := r.extend (d :: ds)) hopened hpeek, hskip]
    rfl

theorem continues_before {d : Char} (hp : r.phase = .value) (hrest : r.cursor.rest = [])
    (ht : dropBlanks (d :: ds) = d :: ds) : r.Continues limit (d :: ds) := by
  have hextend : (r.extend (d :: ds)).cursor.rest = d :: ds := by
    rw [extend_cursor, Cursor.extend_rest, hrest, List.nil_append]
  have hstep := step_extend_value hp limit (d :: ds)
  cases h : (r.extend (d :: ds)).beginValue limit with
  | go next =>
    have hlt := beginValue_rest_length_lt (Cursor.peek_of_rest hextend) (isBlank_of_dropBlanks ht) h
    rw [hextend] at hlt
    exact .beyond (hstep.trans h) hlt
  | done v c => exact absurd h (beginValue_ne_done _)
  | stuck f =>
    have hstuck := hstep.trans h
    rcases beginValue_stuck hextend h with ⟨ho, -, hf⟩ | ⟨hd, -, hk⟩ | ⟨-, hposition, hk⟩
    · have hstep0 : r.step limit = r.expect r.freshCloser true r.cursor := by
        rw [step, hp]
        unfold beginValue
        rw [Cursor.peek_of_rest_nil hrest]
        exact if_neg ho
      refine .same ?_
      rw [hstuck, hstep0, hf]
      rfl
    · exact .full hstuck hk (by rcases hd with rfl | rfl <;> simp)
    · exact .short hstuck hk hposition (List.cons_ne_nil d ds)

/-- **The step of a reading is the same in a longer text, or it reads behind the old end.** -/
theorem continues (limit : Nat) (r : Reading) (ht : dropBlanks ds = ds) :
    r.Continues limit ds := by
  cases ds with
  | nil => exact .same (by rw [extend_nil, Move.extend_nil])
  | cons d ds =>
    cases r.stands limit with
    | settled h _ => exact .same (h _ ht)
    | bareword hp hne ho h => exact continues_bareword h _
    | entering hp hd hfresh hcloser hne hrest h => exact continues_entering hd hne hrest h ht
    | quoted hp hrest hopen => exact continues_quoted d ds hp hrest hopen
    | behind hp ho hrest => exact continues_behind hp ho hrest ht
    | before hp hrest => exact continues_before hp hrest ht

/-! ### Runs in a longer text -/

/-- The outcome depends on what is behind the end of the text of `r`, where `ds` follows. -/
def Exceeds (r : Reading) (ds : List Char) : Except LiteralFailure (Literal × Cursor) → Prop
  | .ok (_, stop) => stop.rest.length < ds.length
  | .error f => ∀ e, f.kind = .tokenExpected e → r.textEnd < f.position

theorem Laid.extend {low : Nat} (h : r.Laid low) (ds : List Char) : (r.extend ds).Laid low := h

/-- Where a run fails, like `step_stuck`. -/
theorem Laid.run_error {low : Nat} {f : LiteralFailure} (h : r.Laid low)
    (hrun : r.run limit = .error f) :
    ∃ c, r.cursor.Reaches c ∧ f.position = c.offset ∧ ∀ e, f.kind = .tokenExpected e →
      dropBlanks c.rest = c.rest ∧ e.OfGrammar := by
  fun_induction r.run limit with
  | case1 r next hs ih =>
    obtain ⟨hnext, hreach⟩ := h.step hs
    obtain ⟨c, hc, hrest⟩ := ih hnext hrun
    exact ⟨c, hreach.trans hc, hrest⟩
  | case2 r v c hs => cases hrun
  | case3 r f' hs =>
    cases hrun
    exact step_stuck hs

/-- A run that has left the old text behind does not come back. -/
theorem Laid.exceeds {low : Nat} (h : next.Laid low) (hr : (r.extend ds).cursor.Reaches next.cursor)
    (hlt : next.cursor.rest.length < ds.length) : r.Exceeds ds (next.run limit) := by
  cases hrun : next.run limit with
  | ok result =>
    obtain ⟨v, stop⟩ := result
    exact Nat.lt_of_le_of_lt (run_rest_length_le hrun) hlt
  | error f =>
    intro e _
    obtain ⟨c, hc, hposition, -⟩ := h.run_error hrun
    have hold : (r.extend ds).cursor.Reaches ⟨r.textEnd, ds⟩ := ⟨r.cursor.rest, rfl, rfl⟩
    have hle : c.rest.length ≤ next.cursor.rest.length := by
      obtain ⟨cs, hcs, -⟩ := hc
      simp [hcs]
    have hlt' := hold.offset_lt_of_length (hr.trans hc) (Nat.lt_of_le_of_lt hle hlt)
    rw [hposition]
    exact hlt'

theorem Laid.step_extend {low : Nat} (h : r.Laid low) (limit : Nat) (ht : dropBlanks ds = ds) :
    (r.extend ds).step limit = (r.step limit).extend ds ∨
      r.Exceeds ds ((r.extend ds).run limit) := by
  cases r.continues limit ht with
  | same hs => exact .inl hs
  | beyond hs hlt =>
    obtain ⟨hnext, hreach⟩ := (h.extend ds).step hs
    rw [run_go hs]
    exact .inr (hnext.exceeds hreach hlt)
  | short hs hk hp hne =>
    obtain ⟨d, ds, rfl⟩ := List.exists_cons_of_ne_nil hne
    have hpos := d.utf8Size_pos
    rw [run_stuck hs]
    refine .inr fun e _ => ?_
    rw [hp, textEnd_extend, byteLength_cons]
    omega
  | full hs hk hd =>
    rw [run_stuck hs]
    refine .inr fun e he => ?_
    rw [hk] at he
    cases he

/-- **A run has the same outcome in a longer text, or one that depends on the new part.** -/
theorem Laid.run_extend {low : Nat} (h : r.Laid low) (limit : Nat) (ht : dropBlanks ds = ds) :
    (r.extend ds).run limit = (r.run limit).map (fun p => (p.1, p.2.extend ds)) ∨
      r.Exceeds ds ((r.extend ds).run limit) := by
  fun_induction r.run limit with
  | case1 r next hs ih =>
    rcases h.step_extend limit ht with hsame | hexceeds
    · obtain ⟨hnext, hreach⟩ := h.step hs
      have hend : next.textEnd = r.textEnd := hreach.end_eq
      rw [hs] at hsame
      rw [run_go hsame]
      refine (ih hnext).imp_right fun hexceeds => ?_
      unfold Exceeds at hexceeds ⊢
      rwa [hend] at hexceeds
    · exact .inr hexceeds
  | case2 r v c hs =>
    rcases h.step_extend limit ht with hsame | hexceeds
    · rw [hs] at hsame
      exact .inl (run_done hsame)
    · exact .inr hexceeds
  | case3 r f hs =>
    rcases h.step_extend limit ht with hsame | hexceeds
    · rw [hs] at hsame
      exact .inl (run_stuck hsame)
    · exact .inr hexceeds

end Reading

/-- What `parseLiteral` reports comes from the reader, unless the text goes on behind the value. -/
theorem readValue_of_parseLiteral {limit : Nat} {text : String} {f : LiteralFailure}
    (h : parseLiteral limit text = .error f) :
    readValue limit (Cursor.start text).skipBlanks = .error f ∨
    ∃ v stop, readValue limit (Cursor.start text).skipBlanks = .ok (v, stop) ∧
      f = ⟨.tokenExpected .endOfInput, stop.skipBlanks.offset, [], none⟩ := by
  cases hread : readValue limit (Cursor.start text).skipBlanks with
  | error f' =>
    rw [parseLiteral_of_readValue_error hread] at h
    cases h
    exact .inl rfl
  | ok p =>
    obtain ⟨v, stop⟩ := p
    refine .inr ⟨v, stop, rfl, ?_⟩
    by_cases hend : stop.skipBlanks.atEnd = true
    · simp [parseLiteral, hread, hend, bind, Except.bind] at h
    · simp only [parseLiteral, hread, hend, bind, Except.bind] at h
      exact (Except.error.inj h).symm

/-- The beginning of a text is read like the text, with the rest behind it. -/
theorem start_extend {text : String} {a ds : List Char} (h : text.toList = a ++ ds)
    (ht : dropBlanks ds = ds) :
    Reading.start (Cursor.start text).skipBlanks =
      (Reading.start (Cursor.start (String.ofList a)).skipBlanks).extend ds := by
  have hstart : Cursor.start text = (Cursor.start (String.ofList a)).extend ds := by
    simp [Cursor.start, Cursor.extend, h]
  rw [hstart, Cursor.skipBlanks_extend ht]
  rfl

theorem textEnd_start (text : String) :
    (Reading.start (Cursor.start text).skipBlanks).textEnd = textLength text := by
  have hend := (Cursor.Reaches.skipBlanks (Cursor.start text)).end_eq
  rw [Reading.textEnd, Reading.start, hend]
  exact Nat.zero_add _

/-- A reading that fails reads the text before the failure, and fails in the same way. -/
theorem run_textBefore {limit : Nat} {text : String} {f : LiteralFailure} {e : ExpectedTokens}
    (h : readValue limit (Cursor.start text).skipBlanks = .error f)
    (hk : f.kind = .tokenExpected e) :
    textLength (textBefore text f.position) = f.position ∧
      (Reading.start (Cursor.start (textBefore text f.position)).skipBlanks).run limit =
        .error f := by
  have hlaid : (Reading.start (Cursor.start text).skipBlanks).Laid
      (Cursor.start text).skipBlanks.offset := rfl
  obtain ⟨c, hc, hposition, hexpects⟩ := hlaid.run_error h
  obtain ⟨ht, -⟩ := hexpects e hk
  obtain ⟨a, ha, hoffset⟩ := (Cursor.Reaches.skipBlanks (Cursor.start text)).trans hc
  have htext : text.toList = a ++ c.rest := ha
  have hlength : f.position = byteLength a := by
    rw [hposition, hoffset]
    exact Nat.zero_add _
  rw [hlength, textBefore_append htext]
  refine ⟨by simp [textLength], ?_⟩
  -- the reading of the beginning has the same outcome, since the failure is not behind it
  let r := Reading.start (Cursor.start (String.ofList a)).skipBlanks
  have hl : r.Laid (Cursor.start (String.ofList a)).skipBlanks.offset := rfl
  have hrun : (r.extend c.rest).run limit = .error f := by
    rw [← start_extend htext ht]
    exact h
  rcases hl.run_extend limit ht with hsame | hexceeds
  · rw [hrun] at hsame
    cases hr : r.run limit with
    | ok p => rw [hr] at hsame; cases hsame
    | error f' => rw [hr] at hsame; cases hsame; rfl
  · rw [hrun] at hexceeds
    have hlt : r.textEnd < f.position := hexceeds e hk
    rw [textEnd_start, hlength] at hlt
    simp [textLength] at hlt

/-- **A failure depends only on the text before it.** What else is expected somewhere in a text,
apart from its end, is also expected if the text ends there, and the failure is the same. -/
theorem parseLiteral_textBefore {limit : Nat} {text : String} {f : LiteralFailure}
    {e : ExpectedTokens} (h : parseLiteral limit text = .error f) (hk : f.kind = .tokenExpected e)
    (he : e ≠ .endOfInput) :
    textLength (textBefore text f.position) = f.position ∧
      parseLiteral limit (textBefore text f.position) = .error f := by
  rcases readValue_of_parseLiteral h with hread | ⟨v, stop, -, rfl⟩
  · obtain ⟨hlength, hrun⟩ := run_textBefore hread hk
    exact ⟨hlength, parseLiteral_of_readValue_error hrun⟩
  · cases hk
    exact absurd rfl he

/-- A bareword that looks for the end of a group which is not there. -/
theorem parseLiteral_textBefore_word :
    let text := "[a\x7bb=]"
    ∃ f, parseLiteral 64 text = .error f ∧ f.kind = .tokenExpected ⟨[',', ']'], false⟩ ∧
      textBefore text f.position = "[a\x7bb" ∧ parseLiteral 64 "[a\x7bb" = .error f := by
  intro text
  have hl : (match parseLiteral 64 text with
      | .ok _ => none
      | .error f => some (f.kind, textBefore text f.position)) =
        some (.tokenExpected ⟨[',', ']'], false⟩, "[a\x7bb") := by
    decide +kernel
  cases h : parseLiteral 64 text with
  | ok v => rw [h] at hl; cases hl
  | error f =>
    rw [h] at hl
    obtain ⟨hk, hb⟩ : f.kind = .tokenExpected ⟨[',', ']'], false⟩ ∧
        textBefore text f.position = "[a\x7bb" := by simpa using hl
    obtain ⟨-, hf⟩ := parseLiteral_textBefore h hk (by decide)
    rw [hb] at hf
    exact ⟨f, rfl, hk, hb, hf⟩

end CommandConsole
