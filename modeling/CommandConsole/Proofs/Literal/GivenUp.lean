/-
# Groups that are given up

A bareword that meets the opening character of a group looks for the end of the
group. If the text ends first, it gives the group up, and the character stands
for itself. So when the text goes on, what has been read changes only if one of
the groups that were given up ends in the new part. Then the bareword goes on
with the group, beyond the old end of the text.

Key definitions: `wordGivesUp`, `Reading.givesUp`, `SettledBefore`, `literalGivesUp`.
Key theorems: `scanBareword_extend`, `scanBareword_beyond`, `Reading.Laid.run_final`,
`Reading.Laid.run_reopened`, `parseLiteral_final`, `parseLiteral_reopened`.
-/
import CommandConsole.Proofs.Literal.Beginning
import CommandConsole.Proofs.Literal.Step

namespace CommandConsole

/-! ### Barewords -/

/-- The group that `c` opens, up to the end of the text, if it does not end there. -/
def unendedGroup (c : Char) (cs : List Char) : List (List Char) :=
  if opensGroup c = true ∧ balancedGroup? (c :: cs) = none then [c :: cs] else []

/-- The groups that a bareword gives up, each from its opening character to the end of the text.
The next `verbatim` characters belong to a group that ends. -/
def wordGivesUp (place : Place) : (verbatim : Nat) → List Char → List (List Char)
  | _, [] => []
  | n + 1, _ :: cs => wordGivesUp place n cs
  | 0, c :: cs =>
    if place.ends c then []
    else if c = '\\' then
      match cs with
      | [] => []
      | _ :: ds => wordGivesUp place 0 ds
    else unendedGroup c cs ++ wordGivesUp place (groupTail c cs) cs

theorem wordGivesUp_ends {place : Place} {c : Char} (h : place.ends c = true) (cs : List Char) :
    wordGivesUp place 0 (c :: cs) = [] := by
  unfold wordGivesUp
  exact if_pos h

theorem wordGivesUp_escape (place : Place) (c : Char) (cs : List Char) :
    wordGivesUp place 0 ('\\' :: c :: cs) = wordGivesUp place 0 cs := by
  have h : place.ends '\\' = false := by cases place <;> decide
  conv => lhs; unfold wordGivesUp
  simp [h]

theorem wordGivesUp_char {place : Place} {c : Char} (he : place.ends c = false) (hs : c ≠ '\\')
    (cs : List Char) : wordGivesUp place 0 (c :: cs) =
      unendedGroup c cs ++ wordGivesUp place (groupTail c cs) cs := by
  conv => lhs; unfold wordGivesUp
  simp [he, hs]

/-- What is put behind a text ends one of the groups. -/
def Reopens (gs : List (List Char)) (ds : List Char) : Prop :=
  ∃ g ∈ gs, balancedGroup? (g ++ ds) ≠ none

instance (gs : List (List Char)) (ds : List Char) : Decidable (Reopens gs ds) :=
  inferInstanceAs (Decidable (∃ g ∈ gs, balancedGroup? (g ++ ds) ≠ none))

variable {place : Place} {ds : List Char}

theorem reopens_append {gs hs : List (List Char)} :
    Reopens (gs ++ hs) ds ↔ Reopens gs ds ∨ Reopens hs ds := by
  simp [Reopens, or_and_right, exists_or]

theorem not_reopens_nil : ¬Reopens [] ds := by simp [Reopens]

theorem balancedGroup?_of_mem_unendedGroup {c : Char} {cs g : List Char}
    (h : g ∈ unendedGroup c cs) : opensGroup c = true ∧ g = c :: cs ∧ balancedGroup? g = none := by
  unfold unendedGroup at h
  split at h
  · rename_i hc
    obtain rfl := List.mem_singleton.mp h
    exact ⟨hc.1, rfl, hc.2⟩
  · cases h

/-- What is given up does not end in the text. -/
theorem balancedGroup?_of_mem_wordGivesUp {g : List Char} : ∀ {verbatim : Nat} {cs : List Char},
    g ∈ wordGivesUp place verbatim cs → balancedGroup? g = none
  | _, [], h => by
    rw [wordGivesUp] at h
    cases h
  | n + 1, c :: cs, h => by
    rw [wordGivesUp] at h
    exact balancedGroup?_of_mem_wordGivesUp h
  | 0, c :: cs, h => by
    by_cases he : place.ends c = true
    · rw [wordGivesUp_ends he] at h
      cases h
    by_cases hs : c = '\\'
    · subst hs
      cases cs with
      | nil =>
        unfold wordGivesUp at h
        simp at h
      | cons e cs =>
        rw [wordGivesUp_escape] at h
        exact balancedGroup?_of_mem_wordGivesUp h
    · rw [wordGivesUp_char (by simpa using he) hs] at h
      rcases List.mem_append.mp h with hc | hcs
      · exact (balancedGroup?_of_mem_unendedGroup hc).2.2
      · exact balancedGroup?_of_mem_wordGivesUp hcs
termination_by _ cs _ => cs.length

/-- A group ends where it did if it is not one that ends in the new part. -/
theorem groupTail_extend {c : Char} {cs : List Char} (h : ¬Reopens (unendedGroup c cs) ds) :
    groupTail c (cs ++ ds) = groupTail c cs := by
  unfold groupTail
  by_cases ho : opensGroup c = true
  · rw [if_pos ho, if_pos ho]
    cases hg : balancedGroup? (c :: cs) with
    | some n =>
      have hn : balancedGroup? (c :: cs ++ ds) = some n := groupLength_append ds _ hg
      rw [← List.cons_append, hn]
    | none =>
      have hn : balancedGroup? (c :: cs ++ ds) = none := by
        refine Classical.byContradiction fun hne => h ⟨c :: cs, ?_, hne⟩
        simp [unendedGroup, ho, hg]
      rw [← List.cons_append, hn]
  · rw [if_neg ho, if_neg ho]

/-- A group that ends in the new part takes the old text and more. -/
theorem groupTail_beyond {c : Char} {cs : List Char} (h : Reopens (unendedGroup c cs) ds) :
    cs.length < groupTail c (cs ++ ds) := by
  obtain ⟨g, hg, hne⟩ := h
  obtain ⟨ho, rfl, hnone⟩ := balancedGroup?_of_mem_unendedGroup hg
  obtain ⟨n, hn⟩ := Option.ne_none_iff_exists'.mp hne
  have hlength : (c :: cs).length < n := by
    refine Classical.byContradiction fun hle => ?_
    have hold := groupLength_of_append ds (c :: cs) hn (Nat.le_of_not_lt hle)
    rw [balancedGroup?] at hnone
    rw [hnone] at hold
    cases hold
  rw [List.cons_append] at hn
  rw [groupTail, if_pos ho, hn, Option.elim_some]
  simp only [List.length_cons] at hlength
  omega

/-- **A bareword that stops in a text stops there in a longer one**, if none of the groups that it
has given up ends there. -/
theorem scanBareword_extend : ∀ {verbatim offset : Nat} {cs : List Char},
    (scanBareword place verbatim offset cs).after.rest ≠ [] →
      ¬Reopens (wordGivesUp place verbatim cs) ds →
        scanBareword place verbatim offset (cs ++ ds) =
          (scanBareword place verbatim offset cs).extend ds
  | verbatim, offset, [], hne, _ => by
    rw [scanBareword_nil] at hne
    exact absurd rfl hne
  | n + 1, offset, c :: cs, hne, h => by
    rw [scanBareword, ScalarScan.after_prepend] at hne
    rw [wordGivesUp] at h
    rw [List.cons_append, scanBareword, scanBareword, scanBareword_extend hne h]
    rfl
  | 0, offset, c :: cs, hne, h => by
    by_cases he : place.ends c = true
    · rw [List.cons_append, scanBareword_ends he, scanBareword_ends he]
      rfl
    by_cases hs : c = '\\'
    · subst hs
      cases cs with
      | nil => simp [scanBareword, he] at hne
      | cons e cs =>
        rw [scanBareword_escape, ScalarScan.after_prepend] at hne
        rw [wordGivesUp_escape] at h
        rw [List.cons_append, List.cons_append, scanBareword_escape, scanBareword_escape,
          scanBareword_extend hne h]
        rfl
    · have hkeeps : place.ends c = false := by simpa using he
      rw [wordGivesUp_char hkeeps hs, reopens_append, not_or] at h
      obtain ⟨join, hextend, hafter, hjoin⟩ := scanBareword_cons hkeeps hs offset
      rw [hjoin, hafter] at hne
      rw [List.cons_append, hjoin, hjoin, groupTail_extend h.1, scanBareword_extend hne h.2,
        hextend]
termination_by _ _ cs _ _ => cs.length

/-- **It goes on beyond the old end of the text** if one of them does. -/
theorem scanBareword_beyond : ∀ {verbatim offset : Nat} {cs : List Char},
    Reopens (wordGivesUp place verbatim cs) ds →
      (scanBareword place verbatim offset (cs ++ ds)).after.rest.length < ds.length
  | verbatim, offset, [], h => by
    rw [wordGivesUp] at h
    exact absurd h not_reopens_nil
  | n + 1, offset, c :: cs, h => by
    rw [wordGivesUp] at h
    rw [List.cons_append, scanBareword]
    exact scanBareword_beyond h
  | 0, offset, c :: cs, h => by
    by_cases he : place.ends c = true
    · rw [wordGivesUp_ends he] at h
      exact absurd h not_reopens_nil
    by_cases hs : c = '\\'
    · subst hs
      cases cs with
      | nil =>
        unfold wordGivesUp at h
        simp [Reopens] at h
      | cons e cs =>
        rw [wordGivesUp_escape] at h
        rw [List.cons_append, List.cons_append, scanBareword_escape]
        exact scanBareword_beyond h
    · have hkeeps : place.ends c = false := by simpa using he
      rw [wordGivesUp_char hkeeps hs, reopens_append] at h
      obtain ⟨join, -, hafter, hjoin⟩ := scanBareword_cons hkeeps hs offset
      rw [List.cons_append, hjoin, hafter]
      by_cases hc : Reopens (unendedGroup c cs) ds
      · -- the group of `c` itself takes the old text
        have hlt := groupTail_beyond hc
        have hle := scanBareword_verbatim_length_le place (groupTail c (cs ++ ds))
          (offset + c.utf8Size) (cs ++ ds)
        have hin := groupTail_le_length c (cs ++ ds)
        rw [List.length_append] at hle hin
        omega
      · rw [groupTail_extend hc]
        exact scanBareword_beyond (h.resolve_left hc)
termination_by _ _ cs _ => cs.length

/-! ### Steps -/

/-- What is read is settled before the end of the text, which stands at the offset `stop`. -/
def SettledBefore {α : Type} (stop : Nat) : Except LiteralFailure (α × Cursor) → Prop
  | .ok (_, after) => after.rest ≠ []
  | .error f => f.position < stop

theorem SettledBefore.of_map {α β : Type} {stop : Nat} {g : α × Cursor → β}
    {e : Except LiteralFailure (α × Cursor)} (h : SettledBefore stop (e.map fun p => (g p, p.2))) :
    SettledBefore stop e := by
  cases e <;> exact h

namespace Cursor

theorem skipFrom_extend_of_ne {p : Char → Bool} (ds : List Char) : ∀ {offset : Nat}
    {cs : List Char}, (skipFrom p offset cs).rest ≠ [] →
      skipFrom p offset (cs ++ ds) = (skipFrom p offset cs).extend ds
  | offset, [], h => absurd rfl h
  | offset, c :: cs, h => by
    by_cases hc : p c = true
    · rw [skipFrom, if_pos hc] at h
      rw [List.cons_append, skipFrom, if_pos hc, skipFrom, if_pos hc, skipFrom_extend_of_ne ds h]
    · rw [List.cons_append, skipFrom, if_neg hc, skipFrom, if_neg hc]
      rfl

/-- Skipping that stops in front of something stops there whatever follows. -/
theorem skipBlanks_extend_of_ne {c : Cursor} (ds : List Char) (h : c.skipBlanks.rest ≠ []) :
    (c.extend ds).skipBlanks = c.skipBlanks.extend ds :=
  skipFrom_extend_of_ne ds h

end Cursor

theorem OpenContainer.After.reading_extend {k : After} {outer : List OpenContainer} {last : Option ScalarTrace}
    {c : Cursor} {ds : List Char} (hne : (k.reading outer last c).cursor.rest ≠ []) :
    k.reading outer last (c.extend ds) = (k.reading outer last c).extend ds := by
  cases k with
  | goesOn top =>
    rw [reading, reading, Cursor.skipBlanks_extend_of_ne ds hne]
    rfl
  | closed whole => rfl

namespace Reading

variable {limit : Nat} {r next : Reading} {ds : List Char}

/-- The groups that the step gives up. Only a bareword does. -/
def stepGivesUp (r : Reading) : List (List Char) :=
  match r.phase with
  | .value => if r.cursor.peek.any opensGroup then [] else wordGivesUp r.place 0 r.cursor.rest
  | .after _ => []

/-- The groups that are given up before the value is complete or cannot be. -/
def givesUp (limit : Nat) (r : Reading) : List (List Char) :=
  match _h : r.step limit with
  | .go next => r.stepGivesUp ++ givesUp limit next
  | .done _ _ => []
  | .stuck _ => []
termination_by r.measure
decreasing_by exact step_measure_lt _h

theorem givesUp_go (h : r.step limit = .go next) :
    r.givesUp limit = r.stepGivesUp ++ next.givesUp limit := by
  rw [givesUp]; split <;> simp_all

theorem acceptBareword_extend (hne : r.acceptBareword.cursor.rest ≠ [])
    (h : ¬Reopens (wordGivesUp r.place 0 r.cursor.rest) ds) :
    (r.extend ds).acceptBareword = r.acceptBareword.extend ds := by
  rw [acceptBareword, extend_cursor, extend_place, Cursor.extend_offset, Cursor.extend_rest,
    scanBareword_extend hne h]
  rfl

theorem enter_extend_go {fresh : OpenContainer} {closer : Char} {close : Span → Literal}
    (h : r.enter limit fresh closer close = .go next) (hne : next.cursor.rest ≠ []) :
    (r.extend ds).enter limit fresh closer close = .go (next.extend ds) := by
  by_cases hd : limit ≤ r.depth
  · rw [enter_full hd] at h
    cases h
  have hd : r.depth < limit := Nat.lt_of_not_le hd
  have hall : r.cursor.advance.skipBlanks.rest ≠ [] →
      (r.extend ds).cursor.advance.skipBlanks = r.cursor.advance.skipBlanks.extend ds := by
    intro hinside
    have hadvance := (Cursor.Reaches.skipBlanks _).rest_ne_nil hinside
    rw [extend_cursor, Cursor.advance_extend ((Cursor.Reaches.advance _).rest_ne_nil hadvance),
      Cursor.skipBlanks_extend_of_ne ds hinside]
  by_cases hcloser : r.cursor.advance.skipBlanks.peek = some closer
  · -- nothing is in the container
    rw [enter_empty hd hcloser] at h
    cases h
    have hinside := (Cursor.Reaches.advance _).rest_ne_nil hne
    have hskip := hall hinside
    have hpeek : (r.extend ds).cursor.advance.skipBlanks.peek = some closer := by
      rw [hskip, Cursor.peek_extend hinside, hcloser]
    rw [enter_empty (r := r.extend ds) hd hpeek, hskip, Cursor.advance_extend hinside]
    rfl
  · rw [enter_inside hd hcloser] at h
    cases h
    have hskip := hall hne
    have hpeek : (r.extend ds).cursor.advance.skipBlanks.peek ≠ some closer := by
      rwa [hskip, Cursor.peek_extend hne]
    rw [enter_inside (r := r.extend ds) hd hpeek, hskip]
    rfl

theorem enter_extend_stuck {fresh : OpenContainer} {closer : Char} {close : Span → Literal}
    {f : LiteralFailure} (h : r.enter limit fresh closer close = .stuck f) :
    (r.extend ds).enter limit fresh closer close = .stuck f := by
  by_cases hd : limit ≤ r.depth
  · rw [enter_full hd] at h
    rw [enter_full (r := r.extend ds) hd, ← h]
    rfl
  · exfalso
    unfold enter at h
    rw [if_neg hd] at h
    dsimp only at h
    split at h <;> cases h

theorem beginValue_extend_go (hp : r.phase = .value) (h : r.beginValue limit = .go next)
    (hne : next.cursor.rest ≠ []) (hlost : ¬Reopens r.stepGivesUp ds) :
    (r.extend ds).beginValue limit = .go (next.extend ds) := by
  have hstep : r.step limit = .go next := by rw [step, hp]; exact h
  have hsome : r.cursor.rest ≠ [] := by
    have hle := step_rest_length_le hstep
    have hpos := List.length_pos_iff.mpr hne
    exact List.length_pos_iff.mp (by omega)
  obtain ⟨ch, cs, hrest⟩ := List.exists_cons_of_ne_nil hsome
  have hpeek : r.cursor.peek = some ch := Cursor.peek_of_rest hrest
  have hnew : (r.extend ds).cursor.rest = ch :: (cs ++ ds) := by
    rw [extend_cursor, Cursor.extend_rest, hrest, List.cons_append]
  rcases beginValue_go_cases hrest h with
    ⟨fresh, closer, close, hbegins⟩ | ⟨rfl, hclosed, rfl⟩ | ⟨hends, ho, rfl⟩
  · rw [hbegins hrest] at h
    rw [hbegins hnew]
    exact enter_extend_go h hne
  · have hclosed' : ((scanQuoted r.cursor.advance.offset cs).extend ds).closed = true := hclosed
    rw [beginValue_quote hnew, extend_cursor, Cursor.advance_extend hsome, Cursor.extend_offset,
      scanQuoted_append ds hclosed]
    dsimp only
    rw [if_pos hclosed']
    rfl
  · have hlost' : ¬Reopens (wordGivesUp r.place 0 r.cursor.rest) ds := by
      rw [stepGivesUp, hp, hpeek] at hlost
      simpa [ho] using hlost
    rw [beginValue_word (r := r.extend ds) (Cursor.peek_of_rest hnew) hends ho,
      acceptBareword_extend hne hlost']

theorem endValue_extend_go {v : Literal} (h : r.endValue v = .go next)
    (hne : next.cursor.rest ≠ []) : (r.extend ds).endValue v = .go (next.extend ds) := by
  obtain ⟨top, outer, ch, k, ho, hp, ht, rfl⟩ := endValue_go_iff.mp h
  -- something stands behind the value, and behind the character that follows it
  have hbehind : r.cursor.skipBlanks.advance.rest ≠ [] := k.reaches.rest_ne_nil hne
  have hsome : r.cursor.skipBlanks.rest ≠ [] := (Cursor.Reaches.advance _).rest_ne_nil hbehind
  have hskip : (r.extend ds).cursor.skipBlanks = r.cursor.skipBlanks.extend ds :=
    Cursor.skipBlanks_extend_of_ne ds hsome
  refine endValue_go_iff.mpr ⟨top, outer, ch, k, ho, ?_, ht, ?_⟩
  · rw [hskip, Cursor.peek_extend hsome, hp]
  · rw [hskip, Cursor.advance_extend hsome, extend_lastScalar, k.reading_extend hne]

/-- **A step that leaves something of the text is the same in a longer one**, if none of the groups
that it gives up ends there. -/
theorem step_extend_go (h : r.step limit = .go next) (hne : next.cursor.rest ≠ [])
    (hlost : ¬Reopens r.stepGivesUp ds) : (r.extend ds).step limit = .go (next.extend ds) := by
  unfold step at h ⊢
  rw [extend_phase]
  split at h
  · rename_i hp
    exact beginValue_extend_go hp h hne hlost
  · exact endValue_extend_go h hne

theorem step_extend_done {v : Literal} {c : Cursor} (h : r.step limit = .done v c) :
    (r.extend ds).step limit = .done v (c.extend ds) := by
  have hc : c = r.cursor := step_done_rest h
  subst hc
  unfold step at h ⊢
  rw [extend_phase]
  split at h
  · exact absurd h (beginValue_ne_done _)
  · unfold endValue at h ⊢
    rw [extend_opened]
    dsimp only [expect, failAt] at h
    repeat' split at h
    all_goals first
      | contradiction
      | (cases h
         simp [*])

theorem beginValue_extend_stuck {f : LiteralFailure} (h : r.beginValue limit = .stuck f)
    (hf : f.position < r.textEnd) : (r.extend ds).beginValue limit = .stuck f := by
  cases hrest : r.cursor.rest with
  | nil =>
    exfalso
    have hend : r.textEnd = r.cursor.offset := by simp [textEnd, hrest]
    unfold beginValue at h
    rw [Cursor.peek_of_rest_nil hrest] at h
    dsimp only at h
    split at h
    · cases h
    · cases h
      exact Nat.lt_irrefl _ (hend ▸ hf)
  | cons ch cs =>
    have hnew : (r.extend ds).cursor.rest = ch :: (cs ++ ds) := by
      rw [extend_cursor, Cursor.extend_rest, hrest, List.cons_append]
    rcases beginValue_stuck hrest h with ⟨ho, he, rfl⟩ | ⟨hd, -, -⟩ | ⟨-, hposition, -⟩
    · unfold beginValue
      rw [Cursor.peek_of_rest hnew]
      exact if_pos ⟨ho, he⟩
    · rcases hd with rfl | rfl
      · rw [beginValue_brace hrest] at h
        rw [beginValue_brace hnew]
        exact enter_extend_stuck h
      · rw [beginValue_bracket hrest] at h
        rw [beginValue_bracket hnew]
        exact enter_extend_stuck h
    · exact absurd (hposition ▸ hf) (Nat.lt_irrefl _)

theorem endValue_extend_stuck {v : Literal} {f : LiteralFailure} (hp : r.phase = .after v)
    (h : r.endValue v = .stuck f) (hf : f.position < r.textEnd) :
    (r.extend ds).endValue v = .stuck f := by
  obtain ⟨top, outer, ho, hposition, -⟩ := endValue_stuck h
  have hsome : r.cursor.skipBlanks.rest ≠ [] := by
    intro hempty
    have hend := (Cursor.Reaches.skipBlanks r.cursor).end_eq
    rw [hempty, byteLength_nil] at hend
    rw [hposition, textEnd] at hf
    omega
  have hskip : (r.extend ds).cursor.skipBlanks = r.cursor.skipBlanks.extend ds :=
    Cursor.skipBlanks_extend_of_ne ds hsome
  -- what stands there does not follow a value, or the step would not have failed
  have hpeek : ∀ ch ∈ top.followers, r.cursor.skipBlanks.peek ≠ some ch := by
    intro ch hch hc
    obtain ⟨cs, hcs⟩ := List.head?_eq_some_iff.mp hc
    rw [Cursor.skipBlanks_rest] at hcs
    obtain ⟨next, hgo, -⟩ : ∃ next, r.step 0 = .go next ∧ next.cursor.rest.length ≤ cs.length :=
      step_follows hp ho hch hcs
    have hstep : r.step 0 = r.endValue v := by rw [step, hp]
    rw [hstep, h] at hgo
    cases hgo
  have hpeek' : ∀ ch ∈ top.followers, (r.extend ds).cursor.skipBlanks.peek ≠ some ch := by
    intro ch hch
    rw [hskip, Cursor.peek_extend hsome]
    exact hpeek ch hch
  rw [endValue_refused ho hpeek] at h
  rw [endValue_refused (r := r.extend ds) ho hpeek', hskip, ← h]
  rfl

/-- A step that fails before the end of the text fails in the same way in a longer one. -/
theorem step_extend_stuck {f : LiteralFailure} (h : r.step limit = .stuck f)
    (hf : f.position < r.textEnd) : (r.extend ds).step limit = .stuck f := by
  unfold step at h ⊢
  rw [extend_phase]
  split at h
  · exact beginValue_extend_stuck h hf
  · rename_i hp
    exact endValue_extend_stuck hp h hf

/-- **A step that gives up a group which ends in the new part** goes on beyond the old end. -/
theorem step_extend_beyond (h : r.step limit = .go next) (hlost : Reopens r.stepGivesUp ds) :
    (r.extend ds).step limit = .go (r.extend ds).acceptBareword ∧
      (r.extend ds).acceptBareword.cursor.rest.length < ds.length := by
  cases hp : r.phase with
  | after v =>
    rw [stepGivesUp, hp] at hlost
    exact absurd hlost not_reopens_nil
  | value =>
    rw [stepGivesUp, hp] at hlost
    dsimp only at hlost
    split at hlost
    · exact absurd hlost not_reopens_nil
    · rename_i hopens
      have hbeyond : (r.extend ds).acceptBareword.cursor.rest.length < ds.length :=
        scanBareword_beyond hlost
      refine ⟨?_, hbeyond⟩
      cases hrest : r.cursor.rest with
      | nil =>
        rw [hrest, wordGivesUp] at hlost
        exact absurd hlost not_reopens_nil
      | cons ch cs =>
        have hpeek : r.cursor.peek = some ch := Cursor.peek_of_rest hrest
        have ho : opensGroup ch = false := by simpa [hpeek] using hopens
        have hends : ¬(r.opened ≠ [] ∧ Place.nested.ends ch = true) := by
          intro hends
          rw [step, hp] at h
          unfold beginValue at h
          rw [hpeek] at h
          dsimp only at h
          rw [if_pos hends] at h
          cases h
        have hnew : (r.extend ds).cursor.peek = some ch := by
          rw [extend_cursor, Cursor.peek_extend (by simp [hrest]), hpeek]
        rw [step, extend_phase, hp]
        exact beginValue_word (r := r.extend ds) hnew hends ho

/-! ### Runs -/

/-- What is still read before the outcome is settled stands in the text. -/
theorem Laid.rest_ne_nil {low : Nat} (h : next.Laid low)
    (hends : SettledBefore next.textEnd (next.run limit)) : next.cursor.rest ≠ [] := by
  cases hrun : next.run limit with
  | ok result =>
    obtain ⟨v, stop⟩ := result
    rw [hrun] at hends
    have hle := run_rest_length_le hrun
    intro hempty
    rw [hempty, List.length_nil, Nat.le_zero, List.length_eq_zero_iff] at hle
    exact hends hle
  | error f =>
    rw [hrun] at hends
    obtain ⟨c, hc, hposition, -⟩ := h.run_error hrun
    intro hempty
    have hle := hc.offset_le
    have hlt : f.position < next.textEnd := hends
    rw [textEnd, hempty, byteLength_nil] at hlt
    omega

/-- Groups are given up only where there is text. -/
theorem rest_ne_nil_of_givesUp (h : Reopens (r.givesUp limit) ds) : r.cursor.rest ≠ [] := by
  fun_induction r.givesUp limit with
  | case1 r next hs ih =>
    intro hempty
    rcases reopens_append.mp h with hstep | hnext
    · unfold stepGivesUp at hstep
      split at hstep
      · split at hstep
        · exact not_reopens_nil hstep
        · rw [hempty, wordGivesUp] at hstep
          exact not_reopens_nil hstep
      · exact not_reopens_nil hstep
    · have hle := step_rest_length_le hs
      rw [hempty, List.length_nil, Nat.le_zero, List.length_eq_zero_iff] at hle
      exact ih hnext hle
  | case2 => exact absurd h not_reopens_nil
  | case3 => exact absurd h not_reopens_nil

/-- **An outcome that is settled before the end of a text stands in a longer one**, if no group
that has been given up ends there. -/
theorem Laid.run_final {low : Nat} (h : r.Laid low) (hends : SettledBefore r.textEnd (r.run limit))
    (hlost : ¬Reopens (r.givesUp limit) ds) :
    (r.extend ds).run limit = (r.run limit).map fun p => (p.1, p.2.extend ds) := by
  fun_induction r.run limit with
  | case1 r next hs ih =>
    obtain ⟨hnext, hreach⟩ := h.step hs
    have hend : next.textEnd = r.textEnd := hreach.end_eq
    have hends' : SettledBefore next.textEnd (next.run limit) := by rwa [hend]
    rw [givesUp_go hs, reopens_append, not_or] at hlost
    rw [run_go (step_extend_go hs (hnext.rest_ne_nil hends') hlost.1)]
    exact ih hnext hends' hlost.2
  | case2 r v c hs => exact run_done (step_extend_done hs)
  | case3 r f hs => exact run_stuck (step_extend_stuck hs hends)

/-- **It does not stand if one of them ends there.** -/
theorem Laid.run_reopened {low : Nat} (h : r.Laid low) (hlost : Reopens (r.givesUp limit) ds) :
    r.Exceeds ds ((r.extend ds).run limit) := by
  fun_induction r.givesUp limit with
  | case1 r next hs ih =>
    obtain ⟨hnext, hreach⟩ := h.step hs
    by_cases hstep : Reopens r.stepGivesUp ds
    · obtain ⟨hgo, hlt⟩ := step_extend_beyond hs hstep
      obtain ⟨hword, hreach'⟩ := (h.extend ds).step hgo
      rw [run_go hgo]
      exact hword.exceeds hreach' hlt
    · have hlater := (reopens_append.mp hlost).resolve_left hstep
      have hexceeds := ih hnext hlater
      have hend : next.textEnd = r.textEnd := hreach.end_eq
      rw [run_go (step_extend_go hs (rest_ne_nil_of_givesUp hlater) hstep)]
      unfold Exceeds at hexceeds ⊢
      rwa [hend] at hexceeds
  | case2 => exact absurd hlost not_reopens_nil
  | case3 => exact absurd hlost not_reopens_nil

end Reading

/-! ### Texts -/

/-- The groups that are given up in the value at the cursor. -/
def valueGivesUp (limit : Nat) (c : Cursor) : List (List Char) := (Reading.start c).givesUp limit

/-- The groups that are given up in a text that is read as a literal. -/
def literalGivesUp (limit : Nat) (text : String) : List (List Char) :=
  valueGivesUp limit (Cursor.start text).skipBlanks

section Texts

variable {limit : Nat} {c : Cursor} {text s : String} {f : LiteralFailure} {ds : List Char}

theorem laid_start (c : Cursor) : (Reading.start c).Laid c.offset := rfl

/-- **A value stands in a longer text** as it does, or fails as it does, if that is settled. -/
theorem readValue_final (hends : SettledBefore (c.offset + byteLength c.rest) (readValue limit c))
    (hs : ¬Reopens (valueGivesUp limit c) ds) :
    readValue limit (c.extend ds) = (readValue limit c).map fun p => (p.1, p.2.extend ds) :=
  (laid_start c).run_final hends hs

theorem Cursor.start_append (text s : String) : start (text ++ s) = (start text).extend s.toList := by
  simp [start, extend]

/-- A text that goes on begins where it did, if it begins at all. -/
theorem start_append_skipBlanks (h : (Cursor.start text).skipBlanks.rest ≠ []) :
    (Cursor.start (text ++ s)).skipBlanks = (Cursor.start text).skipBlanks.extend s.toList := by
  rw [Cursor.start_append, Cursor.skipBlanks_extend_of_ne _ h]

/-- Nothing may stand behind the value. -/
theorem parseLiteral_behind {v : Literal} {stop : Cursor}
    (h : readValue limit (Cursor.start text).skipBlanks = .ok (v, stop))
    (hne : stop.skipBlanks.rest ≠ []) : parseLiteral limit text =
      .error ⟨.tokenExpected .endOfInput, stop.skipBlanks.offset, [], none⟩ := by
  have hend : stop.skipBlanks.atEnd = false := by rwa [Cursor.atEnd, List.isEmpty_eq_false_iff]
  simp only [parseLiteral, h, bind, Except.bind, hend]
  rfl

/-- **A failure before the end of a text is final**, if what follows ends no group that has been
given up. -/
theorem parseLiteral_final (h : parseLiteral limit text = .error f)
    (hf : f.position < textLength text) (hs : ¬Reopens (literalGivesUp limit text) s.toList) :
    parseLiteral limit (text ++ s) = .error f := by
  let c := (Cursor.start text).skipBlanks
  have hend : c.offset + byteLength c.rest = textLength text := textEnd_start text
  have hread : c.rest ≠ [] → SettledBefore (c.offset + byteLength c.rest) (readValue limit c) →
      readValue limit (Cursor.start (text ++ s)).skipBlanks =
        (readValue limit c).map fun p => (p.1, p.2.extend s.toList) := by
    intro hne hends
    rw [start_append_skipBlanks hne]
    exact readValue_final hends hs
  rcases readValue_of_parseLiteral h with hr | ⟨v, stop, hr, rfl⟩
  · have hends : SettledBefore (c.offset + byteLength c.rest) (readValue limit c) := by
      rw [hr, hend]
      exact hf
    rw [hr] at hread
    exact parseLiteral_of_readValue_error (hread ((laid_start c).rest_ne_nil hends) (hr ▸ hends))
  · have hstop := (readValue_laid hr).2.2
    have hsome : stop.skipBlanks.rest ≠ [] := by
      intro hempty
      have hlast := (hstop.trans (.skipBlanks stop)).end_eq
      rw [hempty, byteLength_nil, Nat.add_zero] at hlast
      have hf' : stop.skipBlanks.offset < textLength text := hf
      exact absurd hf' (Nat.not_lt.mpr (Nat.le_of_eq (hend.symm.trans hlast.symm)))
    have hbehind : stop.rest ≠ [] := (Cursor.Reaches.skipBlanks stop).rest_ne_nil hsome
    rw [hr] at hread
    have hread' : readValue limit (Cursor.start (text ++ s)).skipBlanks =
        .ok (v, stop.extend s.toList) := hread (hstop.rest_ne_nil hbehind) hbehind
    have hskip := Cursor.skipBlanks_extend_of_ne s.toList hsome
    rw [parseLiteral_behind hread' (by rw [hskip]; exact List.append_ne_nil_of_left_ne_nil hsome _),
      hskip]
    rfl

/-- **If it ends one of them**, what is still expected stands behind the old end. -/
theorem parseLiteral_reopened (hs : Reopens (literalGivesUp limit text) s.toList)
    (h : parseLiteral limit (text ++ s) = .error f) {e : ExpectedTokens}
    (hk : f.kind = .tokenExpected e) : textLength text < f.position := by
  let r := Reading.start (Cursor.start text).skipBlanks
  have hskip : (Cursor.start (text ++ s)).skipBlanks =
      (Cursor.start text).skipBlanks.extend s.toList :=
    start_append_skipBlanks (Reading.rest_ne_nil_of_givesUp hs)
  have hexceeds := (laid_start (Cursor.start text).skipBlanks).run_reopened hs
  have htext : r.textEnd = textLength text := textEnd_start text
  rcases readValue_of_parseLiteral h with hread | ⟨v, stop, hread, rfl⟩
  · rw [hskip] at hread
    have hr : (r.extend s.toList).run limit = .error f := hread
    rw [hr] at hexceeds
    rw [← htext]
    exact hexceeds e hk
  · rw [hskip] at hread
    have hr : (r.extend s.toList).run limit = .ok (v, stop) := hread
    rw [hr] at hexceeds
    have hold : (r.extend s.toList).cursor.Reaches ⟨r.textEnd, s.toList⟩ :=
      ⟨r.cursor.rest, rfl, rfl⟩
    have hlt : r.textEnd < stop.offset :=
      hold.offset_lt_of_length (readValue_laid hread).2.2 hexceeds
    rw [← htext]
    exact Nat.lt_of_lt_of_le hlt (Cursor.Reaches.skipBlanks stop).offset_le

end Texts

end CommandConsole
