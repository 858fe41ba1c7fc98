/-
# What is expected can be accepted

A text that fails only because it ends is the beginning of a literal: a bareword
can be completed, a quoted scalar closed, and open containers closed one after
the other. Each thing that the failure expects leads to such a text again, so
what it expects is what can really stand there.

Key definitions: `closing`, `Reading.Completes`, `Reading.Promising`, `Reading.Entered`.
Key theorems: `Reading.exists_completes`, `Reading.promising_extend`, `parseLiteral_expected`.
-/
import CommandConsole.Proofs.Literal.Beginning

namespace CommandConsole

/-! ### Closing what is open -/

/-- What closes some containers, the innermost first, behind a value. A key gets the empty value. -/
def closing : List OpenContainer → List Char
  | [] => []
  | .list .. :: outer => ']' :: closing outer
  | .mapKey .. :: outer => '=' :: '"' :: '"' :: '\x7d' :: closing outer
  | .mapValue .. :: outer => '\x7d' :: closing outer

theorem dropBlanks_closing (opened : List OpenContainer) :
    dropBlanks (closing opened) = closing opened := by
  cases opened with
  | nil => rfl
  | cons top outer => cases top <;> exact dropBlanks_cons (by decide) _

/-- What closes containers ends a bareword in them. -/
theorem ends_closing (r : Reading) : ∀ d ∈ (closing r.opened).head?, r.place.ends d = true := by
  unfold Reading.place
  cases r.opened with
  | nil => simp [closing]
  | cons top outer => cases top <;> simp [closing, Place.ends]

theorem dropBlanks_append_of_eq {a b : List Char} (ha : dropBlanks a = a) (hb : dropBlanks b = b) :
    dropBlanks (a ++ b) = a ++ b := by
  cases a with
  | nil => exact hb
  | cons c cs => exact dropBlanks_cons (isBlank_of_dropBlanks ha) _

/-- What a failure expects is no blank, and opens no container. -/
theorem ExpectedTokens.OfGrammar.not_blank {e : ExpectedTokens} (h : e.OfGrammar) {c : Char}
    (hc : c ∈ e.chars ∨ e.value = true ∧ IsPlain c) :
    isBlank c = false ∧ c ≠ '\x7b' ∧ c ≠ '[' := by
  rcases hc with hc | ⟨-, hblank, hc⟩
  · have hmem : c = ',' ∨ c = '=' ∨ c = '\x7d' ∨ c = ']' ∨ c = '"' := by simpa using h.2 c hc
    rcases hmem with rfl | rfl | rfl | rfl | rfl <;> exact ⟨by decide, by decide, by decide⟩
  · refine ⟨hblank, ?_, ?_⟩ <;> rintro rfl <;> exact absurd hc (by decide)

namespace Reading

variable {limit : Nat} {r next : Reading}

/-- The text is a literal, with nothing but blanks behind it. -/
def Completes (limit : Nat) (r : Reading) : Prop :=
  ∃ v stop, r.run limit = .ok (v, stop) ∧ dropBlanks stop.rest = []

theorem Completes.of_go (hs : r.step limit = .go next) (h : next.Completes limit) :
    r.Completes limit := by
  unfold Completes
  rw [run_go hs]
  exact h

/-- Behind a value, closing what is open completes the literal. -/
theorem completes_closing : ∀ {opened : List OpenContainer} {r : Reading} {v : Literal},
    r.phase = .after v → r.opened = opened → dropBlanks r.cursor.rest = closing opened →
      r.Completes limit
  | [], r, v, hp, ho, hrest => by
    have hdone : r.step limit = .done v r.cursor := by simp [step, hp, endValue, ho]
    exact ⟨v, r.cursor, run_done hdone, hrest⟩
  | .list start items :: outer, r, v, hp, ho, hrest => by
    refine .of_go (step_list_close hp ho hrest) (completes_closing rfl rfl ?_)
    rw [Cursor.advance_rest, Cursor.skipBlanks_rest, hrest]
    exact dropBlanks_closing outer
  | .mapKey start entries :: outer, r, v, hp, ho, hrest => by
    have hvalue : (Reading.mk .value (.mapValue start entries v :: outer) r.lastScalar
        r.cursor.skipBlanks.advance.skipBlanks).cursor.rest =
          (quote "").toList ++ '\x7d' :: closing outer := by
      rw [Cursor.skipBlanks_rest, Cursor.advance_rest, Cursor.skipBlanks_rest, hrest]
      exact dropBlanks_cons (by decide) _
    obtain ⟨next, span, hgo, hnp, hno, hnrest⟩ := step_quote rfl hvalue
    have hclose : dropBlanks next.cursor.rest = '\x7d' :: closing outer := by
      rw [hnrest]
      exact dropBlanks_cons (by decide) _
    refine .of_go (step_map_equals hp ho hrest) (.of_go hgo ?_)
    refine .of_go (step_map_close hnp hno hclose) (completes_closing rfl rfl ?_)
    rw [Cursor.advance_rest, Cursor.skipBlanks_rest, hclose]
    exact dropBlanks_closing outer
  | .mapValue start entries key :: outer, r, v, hp, ho, hrest => by
    refine .of_go (step_map_close hp ho hrest) (completes_closing rfl rfl ?_)
    rw [Cursor.advance_rest, Cursor.skipBlanks_rest, hrest]
    exact dropBlanks_closing outer

/-! ### Every beginning of a literal can be completed -/

theorem completes_before (hp : r.phase = .value) (hrest : r.cursor.rest = []) :
    ∃ s, dropBlanks s = s ∧ (r.extend s).Completes limit := by
  have hquote : (r.extend ('"' :: '"' :: closing r.opened)).cursor.rest =
      (quote "").toList ++ closing r.opened := by
    rw [extend_cursor, Cursor.extend_rest, hrest]
    rfl
  have hp' : (r.extend ('"' :: '"' :: closing r.opened)).phase = .value := hp
  obtain ⟨next, span, hgo, hnp, hno, hnrest⟩ := step_quote hp' hquote
  refine ⟨_, dropBlanks_cons (by decide) _, .of_go hgo (completes_closing hnp hno ?_)⟩
  rw [hnrest]
  exact dropBlanks_closing r.opened

theorem completes_behind {v : Literal} (hp : r.phase = .after v)
    (hrest : dropBlanks r.cursor.rest = []) :
    ∃ s, dropBlanks s = s ∧ (r.extend s).Completes limit := by
  have hp' : (r.extend (closing r.opened)).phase = .after v := hp
  refine ⟨closing r.opened, dropBlanks_closing r.opened, completes_closing hp' rfl ?_⟩
  have hskip := congrArg Cursor.rest
    (Cursor.skipBlanks_extend (dropBlanks_closing r.opened) r.cursor)
  rw [Cursor.skipBlanks_rest, Cursor.extend_rest, Cursor.extend_rest, Cursor.skipBlanks_rest,
    hrest] at hskip
  exact hskip

theorem completes_quoted {cs : List Char} (hp : r.phase = .value) (hrest : r.cursor.rest = '"' :: cs)
    (hopen : (scanQuoted r.cursor.advance.offset cs).closed = false) :
    ∃ s, dropBlanks s = s ∧ (r.extend s).Completes limit := by
  obtain ⟨-, us, hus, hall⟩ := scanQuoted_completed hopen
  obtain ⟨hclosed, hafter⟩ := hall (closing r.opened)
  have ht : dropBlanks (us ++ '"' :: closing r.opened) = us ++ '"' :: closing r.opened := by
    rcases hus with rfl | rfl <;> exact dropBlanks_cons (by decide) _
  refine ⟨us ++ '"' :: closing r.opened, ht, ?_⟩
  have hextend : (r.extend (us ++ '"' :: closing r.opened)).cursor.rest =
      '"' :: (cs ++ (us ++ '"' :: closing r.opened)) := by
    rw [extend_cursor, Cursor.extend_rest, hrest, List.cons_append]
  have hadvance : (r.extend (us ++ '"' :: closing r.opened)).cursor.advance.offset =
      r.cursor.advance.offset := by
    rw [extend_cursor, Cursor.advance_extend (by simp [hrest]), Cursor.extend_offset]
  have hstep := (step_extend_value hp limit _).trans (beginValue_quote hextend)
  rw [hadvance] at hstep
  refine .of_go (hstep.trans (if_pos hclosed)) (completes_closing rfl rfl ?_)
  simp only [acceptScalar, hafter]
  exact dropBlanks_closing r.opened

theorem completes_entering {fresh : OpenContainer} {closer : Char} {close : Span → Literal}
    (hd : r.depth < limit) (hcloser : closer = ']' ∨ closer = '\x7d') (hne : r.cursor.rest ≠ [])
    (hrest : dropBlanks r.cursor.rest.tail = [])
    (h : ∀ ds, (r.extend ds).step limit = (r.extend ds).enter limit fresh closer close) :
    ∃ s, dropBlanks s = s ∧ (r.extend s).Completes limit := by
  have ht : dropBlanks (closer :: closing r.opened) = closer :: closing r.opened := by
    refine dropBlanks_cons ?_ _
    rcases hcloser with rfl | rfl <;> decide
  refine ⟨closer :: closing r.opened, ht, ?_⟩
  have hinside : (r.extend (closer :: closing r.opened)).cursor.advance.skipBlanks.rest =
      closer :: closing r.opened := by
    rw [extend_cursor, Cursor.advance_extend hne, Cursor.skipBlanks_extend ht, Cursor.extend_rest,
      Cursor.skipBlanks_rest, Cursor.advance_rest, hrest, List.nil_append]
  have hd' : (r.extend (closer :: closing r.opened)).depth < limit := hd
  have hgo := (h _).trans (enter_empty hd' (Cursor.peek_of_rest hinside) fresh close)
  refine .of_go hgo (completes_closing rfl rfl ?_)
  simp only [Cursor.advance_rest, hinside, List.tail_cons]
  exact dropBlanks_closing r.opened

theorem completes_bareword {us : List Char}
    (hus : dropBlanks us = us) (hall : ∀ ds : List Char, (∀ d ∈ ds.head?, r.place.ends d = true) →
      (scanBareword r.place 0 r.cursor.offset (r.cursor.rest ++ (us ++ ds))).after.rest = ds)
    (h : ∀ ds, (r.extend ds).step limit = .go (r.extend ds).acceptBareword) :
    ∃ s, dropBlanks s = s ∧ (r.extend s).Completes limit := by
  have ht := dropBlanks_append_of_eq hus (dropBlanks_closing r.opened)
  refine ⟨us ++ closing r.opened, ht, .of_go (h _) (completes_closing rfl rfl ?_)⟩
  have hafter := hall (closing r.opened) (ends_closing r)
  simp only [acceptBareword, acceptScalar, extend_cursor, Cursor.extend_rest, extend_place,
    Cursor.extend_offset, hafter]
  exact dropBlanks_closing r.opened

/-- **A text that fails only because it ends can be completed.** -/
theorem exists_completes {f : LiteralFailure} {e : ExpectedTokens} {low : Nat} (hl : r.Laid low)
    (h : r.run limit = .error f) (hk : f.kind = .tokenExpected e) (hp : f.position = r.textEnd) :
    ∃ s, dropBlanks s = s ∧ (r.extend s).Completes limit := by
  fun_induction r.run limit with
  | case1 r next hs ih =>
    obtain ⟨hnext, hreach⟩ := hl.step hs
    have hend : next.textEnd = r.textEnd := hreach.end_eq
    -- what completes the text behind the step completes it before, if the step stays the same
    obtain ⟨s, ht, hcomplete⟩ := ih hnext h (hp.trans hend.symm)
    cases r.stands limit with
    | settled hsame _ =>
      have hgo := hsame s ht
      rw [hs] at hgo
      exact ⟨s, ht, .of_go hgo hcomplete⟩
    | bareword _ _ _ hgo =>
      have hgo0 := hgo []
      rw [extend_nil, hs] at hgo0
      obtain rfl : next = r.acceptBareword := Move.go.inj hgo0
      rcases scanBareword_completed r.place r.cursor.offset (Nat.zero_le r.cursor.rest.length) with
        ⟨-, hstops⟩ | ⟨us, hus, hall⟩
      · have haccept : (r.extend s).acceptBareword = r.acceptBareword.extend s := by
          rw [acceptBareword, extend_cursor, extend_place, Cursor.extend_offset, Cursor.extend_rest,
            hstops]
          rfl
        exact ⟨s, ht, .of_go (hgo s) (haccept ▸ hcomplete)⟩
      · exact completes_bareword hus hall hgo
    | entering _ hd _ hcloser hne hrest h => exact completes_entering hd hcloser hne hrest h
    | quoted hp hrest hopen => exact completes_quoted hp hrest hopen
    | behind hp _ hrest => exact completes_behind hp hrest
    | before hp hrest => exact completes_before hp hrest
  | case2 r v c hs => cases h
  | case3 r f' hs =>
    cases h
    cases r.stands limit with
    | settled _ hstuck => exact absurd hp (Nat.ne_of_lt (hstuck f e hs hk))
    | bareword _ _ _ hgo =>
      have hgo0 := hgo []
      rw [extend_nil, hs] at hgo0
      cases hgo0
    | entering _ hd _ hcloser hne hrest h => exact completes_entering hd hcloser hne hrest h
    | quoted hp hrest hopen => exact completes_quoted hp hrest hopen
    | behind hp _ hrest => exact completes_behind hp hrest
    | before hp hrest => exact completes_before hp hrest

/-! ### What is expected leads on -/

/-- The text is the beginning of a literal: it is one already, or it fails only because it ends. -/
def Promising (limit : Nat) (r : Reading) : Prop :=
  r.Completes limit ∨ ∃ f e, r.run limit = .error f ∧ f.kind = .tokenExpected e ∧
    f.position = r.textEnd

theorem Promising.of_go (hs : r.step limit = .go next) (hr : r.cursor.Reaches next.cursor)
    (h : next.Promising limit) : r.Promising limit := by
  have hend : next.textEnd = r.textEnd := hr.end_eq
  unfold Promising
  rw [run_go hs, ← hend]
  exact h.imp_left (.of_go hs)

/-- Nothing that the reader has read of a whole text keeps it from being a beginning. -/
theorem promising_of_rest (hrest : r.cursor.rest = []) : r.Promising limit := by
  have hend : r.cursor.offset = r.textEnd := by simp [textEnd, hrest]
  have hskip : r.cursor.skipBlanks = r.cursor := by
    rw [Cursor.skipBlanks, Cursor.skipWhile, hrest, Cursor.skipFrom, ← hrest]
  cases hp : r.phase with
  | after v =>
    cases ho : r.opened with
    | nil => exact .inl (completes_closing hp ho (by rw [hrest]; rfl))
    | cons top outer =>
      have hstep : r.step limit = r.expect top.followers false r.cursor.skipBlanks := by
        rw [step, hp]
        exact endValue_refused ho (by simp [hskip, Cursor.peek_of_rest_nil hrest]) v
      rw [hskip] at hstep
      exact .inr ⟨_, _, run_stuck hstep, rfl, hend⟩
  | value =>
    have hstep : r.step limit =
        if r.opened = [] then .go r.acceptBareword else r.expect r.freshCloser true r.cursor := by
      rw [step, hp]
      unfold beginValue
      rw [Cursor.peek_of_rest_nil hrest]
    by_cases ho : r.opened = []
    · rw [if_pos ho] at hstep
      refine .inl (.of_go hstep (completes_closing rfl ho ?_))
      simp [acceptBareword, acceptScalar, hrest, scanBareword_nil, dropBlanks, closing]
    · rw [if_neg ho] at hstep
      exact .inr ⟨_, _, run_stuck hstep, rfl, hend⟩

/-- A value in a container does not begin where the empty container would end. -/
def Entered (r : Reading) : Prop :=
  r.phase = .value → ∀ ch, r.cursor.peek = some ch → ch ∉ r.freshCloser

theorem entered_of_enter {fresh : OpenContainer} {closer : Char} {close : Span → Literal}
    (hfresh : fresh.freshCloser = [closer])
    (h : r.enter limit fresh closer close = .go next) : next.Entered := by
  unfold enter at h
  split at h
  · cases h
  · dsimp only at h
    split at h
    · cases h
      intro hv
      cases hv
    · rename_i hpeek
      cases h
      intro _ ch hch hmem
      simp only [freshCloser, hfresh, List.mem_singleton] at hmem
      exact hpeek (hmem ▸ hch)

theorem freshCloser_list_append (start : Nat) (items : List Literal) (v : Literal) :
    (OpenContainer.list start (items ++ [v])).freshCloser = [] := by
  cases items <;> rfl

theorem freshCloser_mapKey_append (start : Nat) (entries : List (Literal × Literal))
    (e : Literal × Literal) : (OpenContainer.mapKey start (entries ++ [e])).freshCloser = [] := by
  cases entries <;> rfl

/-- Behind a value that goes on, the container it went to is not empty any more. -/
theorem endValue_go {v : Literal} (h : r.endValue v = .go next) :
    (∃ w, next.phase = .after w) ∨ next.freshCloser = [] := by
  unfold endValue at h
  dsimp only [expect, failAt] at h
  repeat' split at h
  all_goals first
    | contradiction
    | (cases h
       first
         | exact .inl ⟨_, rfl⟩
         | exact .inr rfl
         | exact .inr (freshCloser_list_append ..)
         | exact .inr (freshCloser_mapKey_append ..))

theorem entered_of_step (h : r.step limit = .go next) : next.Entered := by
  unfold step at h
  split at h
  · rename_i hp
    unfold beginValue at h
    dsimp only [expect, failAt] at h
    split at h
    · split at h
      · cases h
        intro hv
        cases hv
      · cases h
    · split at h
      · cases h
      · split at h
        · exact entered_of_enter rfl h
        · split at h
          · exact entered_of_enter rfl h
          · split at h
            · split at h
              · cases h
                intro hv
                cases hv
              · cases h
            · cases h
              intro hv
              cases hv
  · intro hv ch _ hmem
    rcases endValue_go h with ⟨w, hw⟩ | hfresh
    · rw [hw] at hv
      cases hv
    · rw [hfresh] at hmem
      cases hmem

/-- What is expected at the end of a text does not fail there. -/
theorem step_ne_stuck {c : Char} {f : LiteralFailure} {e : ExpectedTokens}
    (hentered : (r.extend [c]).Entered) (h : r.step limit = .stuck f)
    (hk : f.kind = .tokenExpected e) (hp : f.position = r.textEnd) (hblank : isBlank c = false)
    (hc : c ∈ e.chars ∨ e.value = true ∧ IsPlain c) :
    (r.extend [c]).step limit ≠ .stuck f := by
  intro hs
  -- the end of the longer text is another place
  have hend : f.position ≠ (r.extend [c]).textEnd := by
    have hpos := c.utf8Size_pos
    rw [hp, textEnd_extend, byteLength_cons]
    omega
  cases r.stands limit with
  | settled _ hstuck => exact absurd hp (Nat.ne_of_lt (hstuck f e h hk))
  | bareword _ _ _ hgo =>
    rw [hgo] at hs
    cases hs
  | entering _ _ _ _ _ _ henter =>
    rw [henter] at hs
    rw [(enter_stuck hs).2] at hk
    cases hk
  | quoted hv hrest _ =>
    have hrest' : (r.extend [c]).cursor.rest = '"' :: (r.cursor.rest.tail ++ [c]) := by
      simp [hrest]
    rw [step_extend_value hv] at hs
    rcases beginValue_stuck hrest' hs with ⟨-, hends, -⟩ | ⟨-, -, hk'⟩ | ⟨-, hp', -⟩
    · exact absurd hends (by decide)
    · rw [hk'] at hk
      cases hk
    · exact hend hp'
  | behind hv ho hrest =>
    rename_i v
    have hstep : r.step limit = r.endValue v := by rw [step, hv]
    rw [hstep] at h
    obtain ⟨top, outer, hopened, -, hk'⟩ := endValue_stuck h
    rw [hk'] at hk
    cases hk
    obtain hmem : c ∈ top.followers := by simpa using hc
    have hv' : (r.extend [c]).phase = .after v := hv
    have hrest' : dropBlanks (r.extend [c]).cursor.rest = [c] := by
      rw [extend_cursor, Cursor.extend_rest, dropBlanks_append (allBlank_of_dropBlanks hrest)]
      exact dropBlanks_cons hblank []
    obtain ⟨next, hgo, -⟩ := step_follows hv' hopened hmem hrest'
    rw [hgo] at hs
    cases hs
  | before hv hrest =>
    have hrest' : (r.extend [c]).cursor.rest = [c] := by simp [hrest]
    rw [step_extend_value hv] at hs
    rcases beginValue_stuck hrest' hs with ⟨-, hends, rfl⟩ | ⟨-, -, hk'⟩ | ⟨-, hp', -⟩
    · cases hk
      rcases hc with hc | ⟨-, hc⟩
      · exact hentered hv c (Cursor.peek_of_rest hrest') hc
      · rw [(of_not_mem_structuralChars hc.2).1] at hends
        cases hends
    · rw [hk'] at hk
      cases hk
    · exact hend hp'

/-- **What a text expects at its end leads on**, to a literal or to the beginning of one. -/
theorem promising_extend {c : Char} {f : LiteralFailure} {e : ExpectedTokens} {low : Nat}
    (hl : r.Laid low) (hentered : (r.extend [c]).Entered) (h : r.run limit = .error f)
    (hk : f.kind = .tokenExpected e) (hp : f.position = r.textEnd) (hblank : isBlank c = false)
    (hopen : c ≠ '\x7b' ∧ c ≠ '[')
    (hc : c ∈ e.chars ∨ e.value = true ∧ IsPlain c) : (r.extend [c]).Promising limit := by
  have ht : dropBlanks [c] = [c] := dropBlanks_cons hblank []
  -- the step of the longer text, unless it is the same
  have hother : ∀ {q : Reading}, q.Laid low → q.Continues limit [c] →
      (q.extend [c]).step limit = (q.step limit).extend [c] ∨ (q.extend [c]).Promising limit := by
    intro q hq hcontinues
    cases hcontinues with
    | same hs => exact .inl hs
    | beyond hs hlt =>
      obtain ⟨-, hreach⟩ := (hq.extend [c]).step hs
      refine .inr (.of_go hs hreach (promising_of_rest ?_))
      exact List.eq_nil_of_length_eq_zero (Nat.lt_one_iff.mp hlt)
    | short hs hk hp hne => exact .inr (.inr ⟨_, _, run_stuck hs, hk, hp⟩)
    | full hs hk hd =>
      simp only [List.head?_cons, Option.some.injEq] at hd
      rcases hd with hd | hd
      · exact absurd hd hopen.1
      · exact absurd hd hopen.2
  fun_induction r.run limit with
  | case1 r next hs ih =>
    rcases hother hl (r.continues limit ht) with hsame | hpromising
    · obtain ⟨hnext, hreach⟩ := hl.step hs
      rw [hs] at hsame
      obtain ⟨-, hreach'⟩ := (hl.extend [c]).step hsame
      have hend : next.textEnd = r.textEnd := hreach.end_eq
      exact .of_go hsame hreach' (ih hnext (entered_of_step hsame) h (hp.trans hend.symm))
    · exact hpromising
  | case2 r v stop hs => cases h
  | case3 r f' hs =>
    cases h
    rcases hother hl (r.continues limit ht) with hsame | hpromising
    · rw [hs] at hsame
      exact absurd hsame (step_ne_stuck hentered hs hk hp hblank hc)
    · exact hpromising

end Reading

/-! ### Texts -/

theorem Reading.extend_extend (r : Reading) (as bs : List Char) :
    (r.extend as).extend bs = r.extend (as ++ bs) := by
  simp [Reading.extend, Cursor.extend]

theorem parseLiteral_of_completes {limit : Nat} {text : String}
    (h : (Reading.start (Cursor.start text).skipBlanks).Completes limit) :
    ∃ v, parseLiteral limit text = .ok v := by
  obtain ⟨v, stop, hrun, hrest⟩ := h
  exact ⟨v, parseLiteral_of_readValue hrun (allBlank_of_dropBlanks hrest)⟩

/-- A value is a whole literal if the text ends behind it and the blanks after it. -/
theorem completes_textBefore {limit : Nat} {text : String} {v : Literal} {stop : Cursor}
    (h : readValue limit (Cursor.start text).skipBlanks = .ok (v, stop)) :
    (Reading.start (Cursor.start (textBefore text stop.skipBlanks.offset)).skipBlanks).Completes
      limit := by
  obtain ⟨-, -, hreach⟩ := readValue_laid h
  obtain ⟨a, ha, hoffset⟩ := ((Cursor.Reaches.skipBlanks (Cursor.start text)).trans hreach).trans
    (.skipBlanks stop)
  have htext : text.toList = a ++ stop.skipBlanks.rest := ha
  have hlength : stop.skipBlanks.offset = byteLength a := hoffset.trans (Nat.zero_add _)
  have ht : dropBlanks stop.skipBlanks.rest = stop.skipBlanks.rest := by
    rw [Cursor.skipBlanks_rest, dropBlanks_dropBlanks]
  rw [hlength, textBefore_append htext]
  let r := Reading.start (Cursor.start (String.ofList a)).skipBlanks
  have hl : r.Laid (Cursor.start (String.ofList a)).skipBlanks.offset := rfl
  have hrun : (r.extend stop.skipBlanks.rest).run limit = .ok (v, stop) := by
    rw [← start_extend htext ht]
    exact h
  rcases hl.run_extend limit ht with hsame | hexceeds
  · rw [hrun] at hsame
    cases hr : r.run limit with
    | error f => rw [hr] at hsame; cases hsame
    | ok p =>
      obtain ⟨w, stop'⟩ := p
      rw [hr] at hsame
      have hstop : stop = stop'.extend stop.skipBlanks.rest := (Prod.mk.inj (Except.ok.inj hsame)).2
      refine ⟨w, stop', hr, ?_⟩
      have hskip := congrArg Cursor.rest (Cursor.skipBlanks_extend ht stop')
      rw [← hstop, Cursor.extend_rest, Cursor.skipBlanks_rest stop'] at hskip
      exact List.self_eq_append_left.mp hskip
  · rw [hrun] at hexceeds
    have hlt : stop.rest.length < stop.skipBlanks.rest.length := hexceeds
    have hle := stop.skipBlanks_rest_length_le
    omega

/-- **What a failure expects can really stand there.** If only the end of the text is expected,
the text before the failure is a literal. If not, each expected character, and each ordinary
character where a value is expected, begins an end of the text with which it is a literal. -/
theorem parseLiteral_expected {limit : Nat} {text : String} {f : LiteralFailure}
    {e : ExpectedTokens} (h : parseLiteral limit text = .error f)
    (hk : f.kind = .tokenExpected e) :
    (e = .endOfInput → ∃ v, parseLiteral limit (textBefore text f.position) = .ok v) ∧
    ∀ c, c ∈ e.chars ∨ e.value = true ∧ IsPlain c → ∃ s v,
      parseLiteral limit (textBefore text f.position ++ String.ofList (c :: s)) = .ok v := by
  rcases readValue_of_parseLiteral h with hread | ⟨v, stop, hread, rfl⟩
  · obtain ⟨hlength, hrun⟩ := run_textBefore hread hk
    let r := Reading.start (Cursor.start (textBefore text f.position)).skipBlanks
    have hl : r.Laid (Cursor.start (textBefore text f.position)).skipBlanks.offset := rfl
    obtain ⟨place, -, -, hgrammar⟩ := hl.run_error hrun
    have hof := (hgrammar e hk).2
    refine ⟨fun he => absurd he hof.1, fun c hc => ?_⟩
    obtain ⟨hblank, hopen⟩ := hof.not_blank hc
    have hposition : f.position = r.textEnd := (textEnd_start _).trans hlength |>.symm
    have hentered : (r.extend [c]).Entered := fun _ _ _ hmem => by cases hmem
    have hpromising := r.promising_extend hl hentered hrun hk hposition hblank hopen hc
    -- the longer text is completed, whether it is a literal already or not
    obtain ⟨s, hcomplete⟩ : ∃ s, (r.extend (c :: s)).Completes limit := by
      rcases hpromising with hcomplete | ⟨f', e', hrun', hk', hp'⟩
      · exact ⟨[], hcomplete⟩
      · obtain ⟨s, -, hcomplete⟩ := Reading.exists_completes (hl.extend [c]) hrun' hk' hp'
        rw [Reading.extend_extend] at hcomplete
        exact ⟨s, hcomplete⟩
    have htext : (textBefore text f.position ++ String.ofList (c :: s)).toList =
        (textBefore text f.position).toList ++ c :: s := by simp
    refine ⟨s, parseLiteral_of_completes ?_⟩
    rw [start_extend htext (dropBlanks_cons hblank s), String.ofList_toList]
    exact hcomplete
  · cases hk
    refine ⟨fun _ => parseLiteral_of_completes (completes_textBefore hread), fun c hc => ?_⟩
    simp [ExpectedTokens.endOfInput] at hc

/-- The expected bracket also ends the group that a bareword before has looked for. -/
theorem parseLiteral_expected_group :
    let text := "[a[b,[x="
    ∃ f s v, parseLiteral 64 text = .error f ∧ f.kind = .tokenExpected ⟨[',', ']'], false⟩ ∧
      textBefore text f.position = "[a[b,[x" ∧
      parseLiteral 64 ("[a[b,[x" ++ String.ofList (']' :: s)) = .ok v := by
  intro text
  have hl : (match parseLiteral 64 text with
      | .ok _ => none
      | .error f => some (f.kind, textBefore text f.position)) =
        some (.tokenExpected ⟨[',', ']'], false⟩, "[a[b,[x") := by
    decide +kernel
  cases h : parseLiteral 64 text with
  | ok v => rw [h] at hl; cases hl
  | error f =>
    rw [h] at hl
    obtain ⟨hk, hb⟩ : f.kind = .tokenExpected ⟨[',', ']'], false⟩ ∧
        textBefore text f.position = "[a[b,[x" := by simpa using hl
    obtain ⟨s, v, hv⟩ := (parseLiteral_expected h hk).2 ']' (.inl (by decide))
    rw [hb] at hv
    exact ⟨f, s, v, rfl, hk, hb, hv⟩

end CommandConsole
