/-
# The nesting limit only cuts

The limit is looked at in one place, where a container opens. A reading that
does not meet it takes the same steps under every larger limit, so a literal is
read, or refused for another reason, in the same way under all of them. Where
the limit is met, as many containers are open as it allows, and the character
there would open one more.

Key definitions: `LiteralFailure.MeetsLimit`, `Reading.Within`.
Key theorems: `Reading.step_of_limit_le`, `Reading.run_of_limit_le`, `Reading.Within.run`,
`parseLiteral_limit`.
-/
import CommandConsole.Proofs.Literal.Beginning
import CommandConsole.Proofs.Literal.LastScalar
import CommandConsole.Proofs.Literal.Step
import CommandConsole.Proofs.Text.Boundary

namespace CommandConsole

/-- The literal is refused because too many containers are open. -/
def LiteralFailure.MeetsLimit (f : LiteralFailure) : Prop := ∃ l, f.kind = .nestingLimitExceeded l

namespace Reading

variable {limit limit' : Nat} {r next : Reading} {f : LiteralFailure}

/-! ### Under a larger limit -/

section Larger

variable (hle : limit ≤ limit')

include hle

/-- A container is opened under a larger limit too, unless the limit is met. -/
theorem enter_of_limit_le (r : Reading) (fresh : OpenContainer) (closer : Char)
    (close : Span → Literal) :
    (∃ f, r.enter limit fresh closer close = .stuck f ∧ f.MeetsLimit) ∨
      r.enter limit' fresh closer close = r.enter limit fresh closer close := by
  by_cases hfull : limit ≤ r.depth
  · exact .inl ⟨_, enter_full hfull .., limit, rfl⟩
  · have hfull' : ¬limit' ≤ r.depth := fun h => hfull (Nat.le_trans hle h)
    refine .inr ?_
    unfold enter
    rw [if_neg hfull, if_neg hfull']

theorem beginValue_of_limit_le (r : Reading) :
    (∃ f, r.beginValue limit = .stuck f ∧ f.MeetsLimit) ∨
      r.beginValue limit' = r.beginValue limit := by
  unfold beginValue
  split
  · exact .inr rfl
  · split
    · exact .inr rfl
    · split
      · exact enter_of_limit_le hle ..
      · split
        · exact enter_of_limit_le hle ..
        · exact .inr rfl

/-- **A step that does not meet the limit is the same under a larger one.** -/
theorem step_of_limit_le (r : Reading) :
    (∃ f, r.step limit = .stuck f ∧ f.MeetsLimit) ∨ r.step limit' = r.step limit := by
  unfold step
  split
  · exact beginValue_of_limit_le hle r
  · exact .inr rfl

/-- **A run that does not meet the limit is the same under a larger one.** -/
theorem run_of_limit_le (r : Reading) :
    (∃ f, r.run limit = .error f ∧ f.MeetsLimit) ∨ r.run limit' = r.run limit := by
  fun_induction r.run limit with
  | case1 r next hs ih =>
    rcases step_of_limit_le hle r with ⟨f, hf, -⟩ | hsame
    · rw [hs] at hf
      cases hf
    · rwa [run_go (hsame.trans hs)]
  | case2 r v c hs =>
    rcases step_of_limit_le hle r with ⟨f, hf, -⟩ | hsame
    · rw [hs] at hf
      cases hf
    · exact .inr (run_done (hsame.trans hs))
  | case3 r f hs =>
    rcases step_of_limit_le hle r with ⟨g, hg, hlimit⟩ | hsame
    · rw [hs] at hg
      cases hg
      exact .inl ⟨f, rfl, hlimit⟩
    · exact .inr (run_stuck (hsame.trans hs))

end Larger

/-! ### Where the limit is met -/

theorem enter_stuck_depth {fresh : OpenContainer} {closer : Char} {close : Span → Literal}
    (h : r.enter limit fresh closer close = .stuck f) : limit ≤ r.depth ∧ f.frames = r.frames := by
  unfold enter at h
  split at h
  · rename_i hfull
    cases h
    exact ⟨hfull, rfl⟩
  · dsimp only at h
    split at h <;> cases h

/-- A step meets the limit at a bracket or a brace, with no container to spare. -/
theorem step_meetsLimit {l : Nat} (h : r.step limit = .stuck f)
    (hk : f.kind = .nestingLimitExceeded l) :
    l = limit ∧ limit ≤ r.depth ∧ f.frames = r.frames ∧ f.position = r.cursor.offset ∧
      ∃ ch cs, r.cursor.rest = ch :: cs ∧ (ch = '{' ∨ ch = '[') := by
  have henter : ∀ {fresh closer close}, r.enter limit fresh closer close = .stuck f →
      l = limit ∧ limit ≤ r.depth ∧ f.frames = r.frames ∧ f.position = r.cursor.offset := by
    intro fresh closer close h
    obtain ⟨hposition, hlimit⟩ := enter_stuck h
    obtain ⟨hdepth, hframes⟩ := enter_stuck_depth h
    rw [hlimit] at hk
    cases hk
    exact ⟨rfl, hdepth, hframes, hposition⟩
  unfold step at h
  split at h
  · cases hrest : r.cursor.rest with
    | nil =>
      unfold beginValue at h
      rw [Cursor.peek_of_rest_nil hrest] at h
      dsimp only at h
      split at h <;> cases h
      cases hk
    | cons ch cs =>
      rcases beginValue_stuck hrest h with ⟨-, -, rfl⟩ | ⟨rfl | rfl, -, -⟩ | ⟨-, -, hexpected⟩
      · cases hk
      · rw [beginValue_brace hrest] at h
        obtain ⟨hl, hdepth, hframes, hposition⟩ := henter h
        exact ⟨hl, hdepth, hframes, hposition, _, _, rfl, .inl rfl⟩
      · rw [beginValue_bracket hrest] at h
        obtain ⟨hl, hdepth, hframes, hposition⟩ := henter h
        exact ⟨hl, hdepth, hframes, hposition, _, _, rfl, .inr rfl⟩
      · rw [hexpected] at hk
        cases hk
  · obtain ⟨top, outer, -, -, hexpected⟩ := endValue_stuck h
    rw [hexpected] at hk
    cases hk

theorem enter_depth_le {fresh : OpenContainer} {closer : Char} {close : Span → Literal}
    (hd : r.depth ≤ limit) (h : r.enter limit fresh closer close = .go next) :
    next.depth ≤ limit := by
  unfold enter at h
  split at h
  · cases h
  · dsimp only at h
    split at h <;> cases h
    · exact hd
    · simp only [depth, List.length_cons] at *
      omega

/-- No step opens more containers than the limit allows. -/
theorem step_depth_le (hd : r.depth ≤ limit) (h : r.step limit = .go next) :
    next.depth ≤ limit := by
  unfold step at h
  split at h
  · unfold beginValue at h
    split at h
    · split at h <;> cases h
      exact hd
    · split at h
      · cases h
      · split at h
        · exact enter_depth_le hd h
        · split at h
          · exact enter_depth_le hd h
          · split at h
            · dsimp only at h
              split at h <;> cases h
              exact hd
            · cases h
              exact hd
  · obtain ⟨top, outer, ch, k, ho, -, -, rfl⟩ := endValue_go_iff.mp h
    rw [depth, ho, List.length_cons] at hd
    cases k <;> simp only [OpenContainer.After.reading, depth, List.length_cons] <;> omega

/-- The reading goes through the text, and no more containers are open than the limit allows. -/
structure Within (text : String) (limit : Nat) (r : Reading) : Prop where
  laid : ∃ low, r.Laid low
  reaches : (Cursor.start text).Reaches r.cursor
  depth_le : r.depth ≤ limit

theorem Within.step {text : String} (h : r.Within text limit) (hs : r.step limit = .go next) :
    next.Within text limit := by
  obtain ⟨low, hlaid⟩ := h.laid
  obtain ⟨hnext, hreach⟩ := hlaid.step hs
  exact ⟨⟨low, hnext⟩, h.reaches.trans hreach, step_depth_le h.depth_le hs⟩

/-- **A run meets the limit at a character that opens a container**, and exactly as many are open
as the limit allows. -/
theorem Within.run {text : String} (h : r.Within text limit) (hrun : r.run limit = .error f)
    {l : Nat} (hk : f.kind = .nestingLimitExceeded l) :
    l = limit ∧ f.frames.length = limit ∧ ∃ before ch after, text.toList = before ++ ch :: after ∧
      f.position = byteLength before ∧ (ch = '{' ∨ ch = '[') := by
  fun_induction r.run limit with
  | case1 r next hs ih => exact ih (h.step hs) hrun
  | case2 => cases hrun
  | case3 r f' hs =>
    cases hrun
    obtain ⟨hl, hfull, hframes, hposition, ch, cs, hrest, hopens⟩ := step_meetsLimit hs hk
    obtain ⟨before, htext, hoffset⟩ := h.reaches.offset_eq
    refine ⟨hl, ?_, before, ch, cs, by rw [htext, hrest], by rw [hposition, hoffset], hopens⟩
    rw [hframes, frames_length]
    exact Nat.le_antisymm h.depth_le hfull

end Reading

theorem readValue_of_limit_le {limit limit' : Nat} (hle : limit ≤ limit') (c : Cursor) :
    (∃ f, readValue limit c = .error f ∧ f.MeetsLimit) ∨ readValue limit' c = readValue limit c :=
  Reading.run_of_limit_le hle (Reading.start c)

/-- **A larger nesting limit changes nothing where the limit is not met.** A literal that is refused
at the limit has exactly that many containers open, in front of one more. -/
theorem parseLiteral_limit (text : String) {limit limit' : Nat} (hle : limit ≤ limit') :
    ((∀ f, parseLiteral limit text = .error f → ¬f.MeetsLimit) →
      parseLiteral limit' text = parseLiteral limit text) ∧
    ∀ f l, parseLiteral limit text = .error f → f.kind = .nestingLimitExceeded l →
      l = limit ∧ f.frames.length = limit ∧ ∃ before ch after,
        text.toList = before ++ ch :: after ∧ f.position = byteLength before ∧
          (ch = '{' ∨ ch = '[') := by
  constructor
  · intro hnever
    rcases readValue_of_limit_le hle (Cursor.start text).skipBlanks with ⟨f, hf, hlimit⟩ | hsame
    · exact absurd hlimit (hnever f (parseLiteral_of_readValue_error hf))
    · rw [parseLiteral, parseLiteral, hsame]
  · intro f l hf hk
    have hstart : (Reading.start (Cursor.start text).skipBlanks).Within text limit :=
      ⟨⟨_, rfl⟩, .skipBlanks _, Nat.zero_le _⟩
    rcases readValue_of_parseLiteral hf with hread | ⟨v, stop, -, rfl⟩
    · exact hstart.run hread hk
    · cases hk

/-- Three containers that the text does not close. Two are too few for it; three and nine end at the
same character. -/
theorem parseLiteral_limit_three :
    let text := "\x7bk=[a, [b"
    (∃ f, parseLiteral 2 text = .error f ∧ f.kind = .nestingLimitExceeded 2 ∧
      f.frames.length = 2 ∧ ∃ before ch after, text.toList = before ++ ch :: after ∧
        f.position = byteLength before ∧ (ch = '{' ∨ ch = '[')) ∧
    (∃ f, parseLiteral 3 text = .error f ∧ ¬f.MeetsLimit) ∧ 3 ≤ 9 ∧
      parseLiteral 9 text = parseLiteral 3 text := by
  intro text
  have hkind (limit : Nat) (kind : LiteralFailKind)
      (h : (match parseLiteral limit text with
        | .ok _ => none
        | .error f => some f.kind) = some kind) :
      ∃ f, parseLiteral limit text = .error f ∧ f.kind = kind := by
    split at h
    · cases h
    · rename_i f hf
      exact ⟨f, hf, Option.some.inj h⟩
  obtain ⟨f, hf, hk⟩ := hkind 2 (.nestingLimitExceeded 2) (by decide +kernel)
  obtain ⟨g, hg, hgk⟩ := hkind 3 (.tokenExpected ⟨[',', ']'], false⟩) (by decide +kernel)
  have hnever : ¬g.MeetsLimit := by
    rintro ⟨l, hl⟩
    rw [hgk] at hl
    cases hl
  refine ⟨⟨f, hf, hk, ((parseLiteral_limit text (by decide : 2 ≤ 3)).2 f 2 hf hk).2⟩, ⟨g, hg, hnever⟩,
    by decide, (parseLiteral_limit text (by decide : 3 ≤ 9)).1 fun g' hg' => ?_⟩
  rw [hg] at hg'
  cases hg'
  exact hnever

end CommandConsole
