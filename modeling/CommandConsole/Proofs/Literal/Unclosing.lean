/-
# Text that closes nothing

A text may go on with characters that open groups but end none. A bareword that
has looked in vain for the end of a group does not find it there either. So
what has been read stays as it is, unless it is a bareword that the end of the
text alone has stopped.

Key definitions: `Unclosing`, `Reading.Begun`.
Key theorems: `Unclosing.not_reopens`, `Unclosing.run_extend`.
-/
import CommandConsole.Proofs.Literal.GivenUp

namespace CommandConsole

/-! ### Groups and barewords -/

/-- No group and no quoted scalar ends in the characters. -/
def Unclosing (ds : List Char) : Prop := ∀ d ∈ ds, d ≠ '\x7d' ∧ d ≠ ']' ∧ d ≠ '"'

variable {ds : List Char}

theorem Unclosing.tail {d : Char} (h : Unclosing (d :: ds)) : Unclosing ds :=
  fun x hx => h x (List.mem_cons_of_mem d hx)

theorem Unclosing.groupLength_eq (h : Unclosing ds) : ∀ (closers : List Char) (quoted : Bool),
    groupLength closers quoted ds = none := by
  induction ds using escaped_induction with
  | nil => exact fun _ _ => by rw [groupLength]
  | lone => exact fun _ _ => by rw [groupLength]
  | escape c cs ih =>
    intro closers quoted
    rw [groupLength_escape, ih h.tail.tail]
    rfl
  | char c cs hc ih =>
    intro closers quoted
    obtain ⟨hbrace, hbracket, hquote⟩ := h c List.mem_cons_self
    have htail := ih h.tail
    rw [groupLength_char hc]
    by_cases hq : quoted = true
    · simp [hq, hquote, htail]
    · cases hopen : closerOf? c <;> simp [hq, hquote, hbrace, hbracket, htail]

/-- A group that does not end in a text does not end behind it either. -/
theorem Unclosing.groupLength_append (h : Unclosing ds) (cs : List Char) :
    ∀ {closers : List Char} {quoted : Bool}, groupLength closers quoted cs = none →
      groupLength closers quoted (cs ++ ds) = none := by
  induction cs using escaped_induction with
  | nil => exact fun _ => h.groupLength_eq _ _
  | lone =>
    intro closers quoted _
    cases ds with
    | nil => rw [List.append_nil, groupLength]
    | cons d ds =>
      rw [List.cons_append, List.nil_append, groupLength_escape, h.tail.groupLength_eq]
      rfl
  | escape c cs ih =>
    intro closers quoted hn
    rw [groupLength_escape, Option.map_eq_none_iff] at hn
    rw [List.cons_append, List.cons_append, groupLength_escape, ih hn]
    rfl
  | char c cs hc ih =>
    intro closers quoted hn
    rw [List.cons_append]
    rcases groupLength_cons hc closers quoted with hnone | hend | ⟨closers', quoted', -, hgoes⟩
    · exact hnone _
    · rw [hend] at hn
      cases hn
    · rw [hgoes, Option.map_eq_none_iff] at hn
      rw [hgoes, ih hn]
      rfl

/-- Text that closes nothing ends no group that has been given up. -/
theorem Unclosing.not_reopens (h : Unclosing ds) (place : Place) (verbatim : Nat) (cs : List Char) :
    ¬Reopens (wordGivesUp place verbatim cs) ds := by
  rintro ⟨g, hg, hne⟩
  exact hne (h.groupLength_append g (balancedGroup?_of_mem_wordGivesUp hg))

/-! ### Values -/

namespace Reading

variable {limit : Nat} {r next : Reading} {ds : List Char} {v : Literal} {stop : Cursor}

/-- The reading has put down a value or opened a container. -/
def Begun (r : Reading) : Prop := (∃ v, r.phase = .after v) ∨ r.opened ≠ []

theorem enter_begun {fresh : OpenContainer} {closer : Char} {close : Span → Literal}
    (h : r.enter limit fresh closer close = .go next) : next.Begun := by
  unfold enter at h
  split at h
  · cases h
  · dsimp only at h
    split at h <;> cases h
    · exact .inl ⟨_, rfl⟩
    · exact .inr (List.cons_ne_nil _ _)

theorem step_begun (h : r.step limit = .go next) : next.Begun := by
  unfold step at h
  split at h
  · unfold beginValue at h
    dsimp only [expect, failAt] at h
    repeat' split at h
    all_goals first
      | contradiction
      | exact enter_begun h
      | (cases h
         exact .inl ⟨_, rfl⟩)
  · unfold endValue at h
    dsimp only [expect, failAt] at h
    repeat' split at h
    all_goals first
      | contradiction
      | (cases h
         first
           | exact .inl ⟨_, rfl⟩
           | exact .inr (List.cons_ne_nil _ _))

/-- Behind a value in a container the text must not end. -/
theorem run_behind (hp : r.phase = .after v) (ho : r.opened ≠ [])
    (hrest : dropBlanks r.cursor.rest = []) : ∃ f, r.run limit = .error f := by
  obtain ⟨top, outer, hopened⟩ := List.exists_cons_of_ne_nil ho
  have hend : r.cursor.skipBlanks.rest = [] := by rw [Cursor.skipBlanks_rest, hrest]
  have hstep : r.step limit = r.expect top.followers false r.cursor.skipBlanks := by
    rw [step, hp]
    exact endValue_refused hopened (by simp [Cursor.peek_of_rest_nil hend]) v
  exact ⟨_, run_stuck hstep⟩

/-- Nor before one. -/
theorem run_before (hp : r.phase = .value) (ho : r.opened ≠ []) (hrest : r.cursor.rest = []) :
    ∃ f, r.run limit = .error f := by
  have hstep : r.step limit = r.expect r.freshCloser true r.cursor := by
    rw [step, hp]
    unfold beginValue
    rw [Cursor.peek_of_rest_nil hrest]
    exact if_neg ho
  exact ⟨_, run_stuck hstep⟩

theorem run_entering {fresh : OpenContainer} {closer : Char} {close : Span → Literal}
    (hp : r.phase = .value) (hd : r.depth < limit) (hrest : dropBlanks r.cursor.rest.tail = [])
    (h : r.step limit = r.enter limit fresh closer close) : ∃ f, r.run limit = .error f := by
  have hend : r.cursor.advance.skipBlanks.rest = [] := by
    rw [Cursor.skipBlanks_rest, Cursor.advance_rest, hrest]
  have hpeek : r.cursor.advance.skipBlanks.peek ≠ some closer := by
    simp [Cursor.peek_of_rest_nil hend]
  rw [run_go (h.trans (enter_inside hd hpeek fresh close))]
  exact run_before hp (List.cons_ne_nil _ _) hend

/-- A bareword that takes the rest of the text is the whole value. -/
theorem opened_of_acceptBareword (h : r.acceptBareword.run limit = .ok (v, stop))
    (hrest : r.acceptBareword.cursor.rest = []) : r.opened = [] ∧ stop.rest = [] := by
  by_cases ho : r.opened = []
  · rw [run_acceptBareword ho] at h
    cases h
    exact ⟨ho, hrest⟩
  · have hopened : r.acceptBareword.opened ≠ [] := ho
    obtain ⟨f, hf⟩ : ∃ f, r.acceptBareword.run limit = .error f :=
      run_behind rfl hopened (by rw [hrest]; rfl)
    rw [hf] at h
    cases h

end Reading

open Reading

namespace Unclosing

variable {limit : Nat} {r next : Reading} {ds : List Char} {v : Literal} {stop : Cursor}

theorem acceptBareword_extend (hd : Unclosing ds) (h : r.acceptBareword.run limit = .ok (v, stop))
    (hends : stop.rest ≠ [] ∨ r.opened ≠ []) :
    (r.extend ds).acceptBareword = r.acceptBareword.extend ds := by
  have hne : (scanBareword r.place 0 r.cursor.offset r.cursor.rest).after.rest ≠ [] := by
    intro hrest
    obtain ⟨ho, hstop⟩ := opened_of_acceptBareword h hrest
    rcases hends with hends | hends
    · exact hends hstop
    · exact hends ho
  exact Reading.acceptBareword_extend hne (hd.not_reopens _ _ _)

/-- A step of a reading that comes to a value is the same in the longer text. -/
theorem step_extend (hd : Unclosing ds) (ht : dropBlanks ds = ds)
    (h : r.run limit = .ok (v, stop))
    (hends : stop.rest ≠ [] ∨ r.Begun ∨ ∃ ch ∈ r.cursor.peek, opensGroup ch = true) :
    (r.extend ds).step limit = (r.step limit).extend ds := by
  cases r.stands limit with
  | settled hall _ => exact hall ds ht
  | bareword hp hne hopens hgo =>
    have hgo0 := hgo []
    rw [extend_nil] at hgo0
    rw [run_go hgo0] at h
    have hends' : stop.rest ≠ [] ∨ r.opened ≠ [] := by
      rcases hends with hends | (⟨w, hw⟩ | ho) | ⟨ch, hch, ho⟩
      · exact .inl hends
      · rw [hp] at hw
        cases hw
      · exact .inr ho
      · rw [hopens ch hch] at ho
        cases ho
    rw [hgo, hgo0, hd.acceptBareword_extend h hends']
    rfl
  | entering hp hdepth _ _ _ hrest henter =>
    have henter0 := henter []
    rw [extend_nil] at henter0
    obtain ⟨f, hf⟩ := run_entering hp hdepth hrest henter0
    rw [hf] at h
    cases h
  | quoted hp hrest hopen =>
    have hstep : ∃ f, r.step limit = .stuck f := by
      rw [step, hp]
      exact ⟨_, (beginValue_quote hrest).trans (if_neg (by simp [hopen]))⟩
    obtain ⟨f, hf⟩ := hstep
    rw [run_stuck hf] at h
    cases h
  | behind hp ho hrest =>
    obtain ⟨f, hf⟩ : ∃ f, r.run limit = .error f := run_behind hp ho hrest
    rw [hf] at h
    cases h
  | before hp hrest =>
    by_cases ho : r.opened = []
    · have hstep : r.step limit = .go r.acceptBareword := by
        rw [step, hp]
        unfold beginValue
        rw [Cursor.peek_of_rest_nil hrest]
        exact if_pos ho
      have hscan : r.acceptBareword.cursor.rest = [] := by
        simp [acceptBareword, acceptScalar, hrest, scanBareword_nil]
      rw [run_go hstep] at h
      have hstop := (opened_of_acceptBareword h hscan).2
      rcases hends with hends | (⟨w, hw⟩ | ho') | ⟨ch, hch, -⟩
      · exact absurd hstop hends
      · rw [hp] at hw
        cases hw
      · exact absurd ho ho'
      · rw [Cursor.peek_of_rest_nil hrest] at hch
        cases hch
    · obtain ⟨f, hf⟩ : ∃ f, r.run limit = .error f := run_before hp ho hrest
      rw [hf] at h
      cases h

/-- **A value that ends in a text ends there** if text that closes nothing is put behind, unless
it is a bareword up to the end of the text. -/
theorem run_extend (hd : Unclosing ds) (ht : dropBlanks ds = ds)
    (h : r.run limit = .ok (v, stop))
    (hends : stop.rest ≠ [] ∨ r.Begun ∨ ∃ ch ∈ r.cursor.peek, opensGroup ch = true) :
    (r.extend ds).run limit = .ok (v, stop.extend ds) := by
  fun_induction r.run limit with
  | case1 r next hs ih =>
    have hrun : r.run limit = .ok (v, stop) := by rwa [run_go hs]
    have hsame := hd.step_extend ht hrun hends
    rw [hs] at hsame
    rw [run_go hsame]
    exact ih h (.inr (.inl (step_begun hs)))
  | case2 r w c hs =>
    cases h
    have hsame := hd.step_extend ht (run_done hs) hends
    rw [hs] at hsame
    exact run_done hsame
  | case3 r f hs => cases h

end Unclosing
end CommandConsole
