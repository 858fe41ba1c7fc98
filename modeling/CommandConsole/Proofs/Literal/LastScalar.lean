/-
# The scalar that was read last

A literal that cannot be read fails with the scalar that was read last. If that
scalar ends where the text does, nothing was read behind it: it stands in all
the containers that are open there, and no other value may come next. What is
said of it was read from the text where it begins, and a bareword without a
backslash is its own text.

Key definitions: `ScalarTrace.ReadAt`, `Reading.Remembers`.
Key theorems: `ScalarTrace.ReadAt.text_eq`, `Reading.Remembers.step`, `readValue_lastScalar`.
-/
import CommandConsole.Proofs.Literal.Layout
import CommandConsole.Proofs.Literal.Scan

namespace CommandConsole

/-- The scalar was read at the cursor `d`, bare or quoted. -/
inductive ScalarTrace.ReadAt (d : Cursor) : ScalarTrace → Prop
  | bare {place : Place} {depth : Nat} (hq : d.peek ≠ some '"') :
      ReadAt d ⟨String.ofList (scanBareword place 0 d.offset d.rest).text,
        ⟨d.offset, (scanBareword place 0 d.offset d.rest).stop⟩, depth, false⟩
  | quoted {ds : List Char} {depth : Nat} (hd : d.rest = '"' :: ds) :
      ReadAt d ⟨String.ofList (scanQuoted (d.offset + 1) ds).text,
        ⟨d.offset, (scanQuoted (d.offset + 1) ds).stop⟩, depth,
        !(scanQuoted (d.offset + 1) ds).closed⟩

/-- Nothing closes a bareword. -/
theorem scanBareword_closed (place : Place) (verbatim offset : Nat) (cs : List Char) :
    (scanBareword place verbatim offset cs).closed = true := by
  fun_induction scanBareword place verbatim offset cs with
  | case8 _ _ _ _ _ _ _ _ _ ih => exact ih
  | case9 _ _ _ _ _ _ _ _ _ ih => exact ih
  | _ => first | rfl | assumption

/-- A bareword that goes on to the end of the text is its own text, unless there is a backslash
in it. -/
theorem scanBareword_text {place : Place} {verbatim offset : Nat} {cs : List Char}
    (hs : '\\' ∉ cs)
    (h : (scanBareword place verbatim offset cs).stop = offset + byteLength cs) :
    (scanBareword place verbatim offset cs).text = cs := by
  have hprepend : ∀ {s : ScalarScan} {c : Char} {cs : List Char} {offset : Nat}, '\\' ∉ c :: cs →
      ('\\' ∉ cs → s.stop = offset + c.utf8Size + byteLength cs → s.text = cs) →
        (s.prepend c).stop = offset + byteLength (c :: cs) → (s.prepend c).text = c :: cs := by
    intro s c cs offset hs ih hstop
    rw [byteLength_cons, ← Nat.add_assoc] at hstop
    exact congrArg (c :: ·) (ih (fun hm => hs (List.mem_cons_of_mem c hm)) hstop)
  have hends : ∀ {c : Char} {cs : List Char} {offset : Nat} {P : Prop},
      offset = offset + byteLength (c :: cs) → P := by
    intro c cs offset P he
    have := c.utf8Size_pos
    rw [byteLength_cons] at he
    omega
  fun_induction scanBareword place verbatim offset cs with
  | case1 => rfl
  | case2 offset c cs n ih => exact hprepend hs ih h
  | case3 => exact hends h
  | case4 => simp at hs
  | case5 => simp at hs
  | case6 _ _ _ _ _ _ _ _ ih => exact hprepend hs ih h
  | case7 _ _ _ _ _ _ _ ih => exact hprepend hs ih h
  | case8 => exact hends h
  | case9 _ _ _ _ _ _ _ _ _ ih => exact hprepend hs ih h
  | case10 _ _ _ _ _ _ _ ih => exact hprepend hs ih h

namespace ScalarTrace.ReadAt

variable {d : Cursor} {sc : ScalarTrace}

theorem start_eq (h : sc.ReadAt d) : sc.span.start = d.offset := by
  cases h <;> rfl

/-- A quoted scalar that is still open begins with a quote, and no closing one follows. -/
theorem of_openQuote (h : sc.ReadAt d) (ho : sc.openQuote = true) :
    ∃ ds, d.rest = '"' :: ds ∧ (scanQuoted (d.offset + 1) ds).closed = false := by
  cases h with
  | bare => cases ho
  | quoted hd => exact ⟨_, hd, by simpa using ho⟩

/-- **A bareword without a backslash at the end of a text is written as it is.** -/
theorem text_eq (h : sc.ReadAt d) (hq : d.peek ≠ some '"') (hs : '\\' ∉ d.rest)
    (hend : sc.span.stop = d.offset + byteLength d.rest) : sc.text = String.ofList d.rest := by
  cases h with
  | bare => exact congrArg String.ofList (scanBareword_text hs hend)
  | quoted hd => exact absurd (Cursor.peek_of_rest hd) hq

end ScalarTrace.ReadAt

namespace Reading

variable {limit : Nat} {r next : Reading} {start : Cursor} {f : LiteralFailure}

/-- The last scalar of the reading of a literal that begins at the cursor `start`. If it ends where
the text does, the reading stands right behind it. -/
structure Remembers (start : Cursor) (r : Reading) : Prop where
  laid : r.Laid start.offset
  reaches : start.Reaches r.cursor
  readAt : ∀ sc ∈ r.lastScalar, ∃ d, start.Reaches d ∧ sc.ReadAt d
  last : ∀ sc ∈ r.lastScalar, start.offset + byteLength start.rest ≤ sc.span.stop →
    (∃ v, r.phase = .after v) ∧ r.cursor.rest = [] ∧ sc.depth = r.depth

/-- The reading `next` has just read the scalar `sc`, where `r` stands. -/
structure Reads (r next : Reading) (sc : ScalarTrace) : Prop where
  lastScalar : next.lastScalar = some sc
  readAt : sc.ReadAt r.cursor
  phase : ∃ v, next.phase = .after v
  depth : sc.depth = next.depth
  stop : sc.span.stop ≤ next.cursor.offset

theorem reads_bareword (hq : r.cursor.peek ≠ some '"') :
    ∃ sc, r.Reads r.acceptBareword sc := by
  have hstop := (scanBareword_startsAt r.place 0 r.cursor.offset r.cursor.rest).stop_le.2
  refine ⟨_, rfl, ?_, ⟨_, rfl⟩, rfl, hstop⟩
  rw [scanBareword_closed]
  exact .bare hq

theorem reads_quoted (hq : r.cursor.peek = some '"') :
    ∃ sc, r.Reads (r.acceptScalar (scanQuoted r.cursor.advance.offset r.cursor.advance.rest)) sc ∧
      sc.openQuote = !(scanQuoted r.cursor.advance.offset r.cursor.advance.rest).closed := by
  obtain ⟨ds, hds⟩ := List.head?_eq_some_iff.mp hq
  have hadvance : r.cursor.advance = ⟨r.cursor.offset + 1, ds⟩ := by
    rw [Cursor.advance, hds]
    rfl
  have hstop := (scanQuoted_reaches r.cursor.advance.offset r.cursor.advance.rest).2
  refine ⟨_, ⟨rfl, ?_, ⟨_, rfl⟩, rfl, Nat.le_of_eq hstop⟩, rfl⟩
  rw [hadvance]
  exact .quoted hds

theorem enter_lastScalar {fresh : OpenContainer} {closer : Char} {close : Span → Literal}
    (h : r.enter limit fresh closer close = .go next) : next.lastScalar = r.lastScalar := by
  unfold enter at h
  split at h
  · cases h
  · dsimp only at h
    split at h <;> cases h <;> rfl

/-- A value begins with a scalar, which is the last one then, or with a container. -/
theorem beginValue_lastScalar (h : r.beginValue limit = .go next) :
    next.lastScalar = r.lastScalar ∨ ∃ sc, r.Reads next sc := by
  unfold beginValue at h
  split at h
  · rename_i hnone
    split at h
    · cases h
      exact .inr (reads_bareword (by rw [hnone]; simp))
    · cases h
  · rename_i ch hc
    split at h
    · cases h
    · split at h
      · exact .inl (enter_lastScalar h)
      · split at h
        · exact .inl (enter_lastScalar h)
        · split at h
          · rename_i hquote
            dsimp only at h
            split at h
            · cases h
              obtain ⟨sc, hsc, -⟩ := reads_quoted (hquote ▸ hc)
              exact .inr ⟨sc, hsc⟩
            · cases h
          · rename_i hquote
            cases h
            exact .inr (reads_bareword (by rw [hc]; simpa using hquote))

/-- Behind a value comes a character that goes on with the container it is in. -/
theorem endValue_go_rest {v : Literal} (h : r.endValue v = .go next) :
    next.lastScalar = r.lastScalar ∧ r.cursor.rest ≠ [] := by
  have hne : ∀ {ch : Char}, r.cursor.skipBlanks.peek = some ch → r.cursor.rest ≠ [] := by
    intro ch hc hnil
    rw [Cursor.peek, Cursor.skipBlanks_rest, hnil] at hc
    cases hc
  unfold endValue at h
  dsimp only at h
  split at h
  · cases h
  · split at h
    · cases h
      exact ⟨rfl, hne (by assumption)⟩
    · split at h
      · cases h
        exact ⟨rfl, hne (by assumption)⟩
      · cases h
  · split at h
    · cases h
      exact ⟨rfl, hne (by assumption)⟩
    · cases h
  · split at h
    · cases h
      exact ⟨rfl, hne (by assumption)⟩
    · split at h
      · cases h
        exact ⟨rfl, hne (by assumption)⟩
      · cases h

/-- **A step keeps the last scalar in mind.** -/
theorem Remembers.step (h : r.Remembers start) (hs : r.step limit = .go next) :
    next.Remembers start := by
  obtain ⟨hlaid, hreach⟩ := h.laid.step hs
  have hreaches := h.reaches.trans hreach
  unfold Reading.step at hs
  split at hs
  · rename_i hp
    rcases beginValue_lastScalar hs with hlast | ⟨sc, hsc⟩
    · -- a container is opened, and the scalar read before it does not end the text
      refine ⟨hlaid, hreaches, hlast ▸ h.readAt, fun sc hsc hend => ?_⟩
      obtain ⟨⟨v, hv⟩, -⟩ := h.last sc (hlast ▸ hsc) hend
      rw [hp] at hv
      cases hv
    · refine ⟨hlaid, hreaches, fun sc' hsc' => ?_, fun sc' hsc' hend => ?_⟩
      · obtain rfl : sc = sc' := Option.some.inj (hsc.lastScalar.symm.trans hsc')
        exact ⟨r.cursor, h.reaches, hsc.readAt⟩
      · obtain rfl : sc = sc' := Option.some.inj (hsc.lastScalar.symm.trans hsc')
        exact ⟨hsc.phase, hreaches.rest_eq_nil (Nat.le_trans hend hsc.stop), hsc.depth⟩
  · obtain ⟨hlast, hne⟩ := endValue_go_rest hs
    refine ⟨hlaid, hreaches, hlast ▸ h.readAt, fun sc hsc hend => ?_⟩
    exact absurd (h.last sc (hlast ▸ hsc) hend).2.1 hne

theorem frames_length (r : Reading) : r.frames.length = r.depth := by
  simp [frames, depth]

/-- What a failure says of the scalar `sc` that was read last. -/
structure Recalls (start : Cursor) (f : LiteralFailure) (sc : ScalarTrace) : Prop where
  readAt : ∃ d, start.Reaches d ∧ sc.ReadAt d
  depth : sc.depth = f.frames.length
  value : ∀ e, f.expected? = some e → e.value = false

theorem enter_stuck_lastScalar {fresh : OpenContainer} {closer : Char} {close : Span → Literal}
    (h : r.enter limit fresh closer close = .stuck f) : f.lastScalar = r.lastScalar := by
  unfold enter at h
  split at h
  · cases h
    rfl
  · dsimp only at h
    split at h <;> cases h

/-- Where no value can begin, the last scalar is one read before, or a quoted one that does not
end. -/
theorem beginValue_stuck_lastScalar (h : r.beginValue limit = .stuck f) :
    f.lastScalar = r.lastScalar ∨ ∃ sc, f.lastScalar = some sc ∧ sc.ReadAt r.cursor ∧
      sc.depth = f.frames.length ∧ f.expected? = some ⟨['"'], false⟩ := by
  unfold beginValue at h
  split at h
  · split at h
    · cases h
    · cases h
      exact .inl rfl
  · rename_i ch hc
    split at h
    · cases h
      exact .inl rfl
    · split at h
      · exact .inl (enter_stuck_lastScalar h)
      · split at h
        · exact .inl (enter_stuck_lastScalar h)
        · split at h
          · rename_i hquote
            dsimp only at h
            split at h
            · cases h
            · cases h
              obtain ⟨sc, hsc, -⟩ := reads_quoted (hquote ▸ hc)
              exact .inr ⟨sc, hsc.lastScalar, hsc.readAt,
                hsc.depth.trans (frames_length _).symm, rfl⟩
          · cases h

theorem endValue_stuck_expected {v : Literal} (h : r.endValue v = .stuck f) :
    f.lastScalar = r.lastScalar ∧ f.frames = r.frames ∧
      ∀ e, f.expected? = some e → e.value = false := by
  have hexpect : ∀ {chars : List Char} {c : Cursor}, r.expect chars false c = .stuck f →
      f.lastScalar = r.lastScalar ∧ f.frames = r.frames ∧
        ∀ e, f.expected? = some e → e.value = false := by
    intro chars c he
    cases he
    refine ⟨rfl, rfl, fun e he => ?_⟩
    cases he
    rfl
  unfold endValue at h
  dsimp only at h
  split at h
  · cases h
  · split at h
    · cases h
    · split at h
      · cases h
      · exact hexpect h
  · split at h
    · cases h
    · exact hexpect h
  · split at h
    · cases h
    · split at h
      · cases h
      · exact hexpect h

/-- A literal that fails behind a scalar that ends the text recalls that scalar. -/
theorem Remembers.stuck (h : r.Remembers start) (hs : r.step limit = .stuck f) {sc : ScalarTrace}
    (hsc : f.lastScalar = some sc)
    (hend : start.offset + byteLength start.rest ≤ sc.span.stop) : Recalls start f sc := by
  unfold Reading.step at hs
  split at hs
  · rename_i hp
    rcases beginValue_stuck_lastScalar hs with hlast | ⟨sc', hsc', hread, hdepth, hexpected⟩
    · obtain ⟨⟨v, hv⟩, -⟩ := h.last sc (hlast ▸ hsc) hend
      rw [hp] at hv
      cases hv
    · obtain rfl : sc' = sc := Option.some.inj (hsc'.symm.trans hsc)
      refine ⟨⟨r.cursor, h.reaches, hread⟩, hdepth, fun e he => ?_⟩
      rw [hexpected] at he
      cases he
      rfl
  · obtain ⟨hlast, hframes, hvalue⟩ := endValue_stuck_expected hs
    obtain ⟨-, -, hdepth⟩ := h.last sc (hlast ▸ hsc) hend
    exact ⟨h.readAt sc (hlast ▸ hsc), by rw [hframes, frames_length, hdepth], hvalue⟩

theorem Remembers.run (h : r.Remembers start) (hrun : r.run limit = .error f) {sc : ScalarTrace}
    (hsc : f.lastScalar = some sc)
    (hend : start.offset + byteLength start.rest ≤ sc.span.stop) : Recalls start f sc := by
  fun_induction r.run limit with
  | case1 r next hs ih => exact ih (h.step hs) hrun
  | case2 => cases hrun
  | case3 r f' hs =>
    cases hrun
    exact h.stuck hs hsc hend

end Reading

/-- **The last scalar of a literal that fails, if the text ends with it**, was read where it begins;
it stands in all open containers, and no value may follow it. -/
theorem readValue_lastScalar {limit : Nat} {c : Cursor} {f : LiteralFailure}
    (h : readValue limit c = .error f) {sc : ScalarTrace} (hsc : f.lastScalar = some sc)
    (hend : c.offset + byteLength c.rest ≤ sc.span.stop) : Reading.Recalls c f sc := by
  have hstart : (Reading.start c).Remembers c :=
    ⟨rfl, .refl c, fun _ hsc => (by cases hsc), fun _ hsc => (by cases hsc)⟩
  exact hstart.run h hsc hend

end CommandConsole
