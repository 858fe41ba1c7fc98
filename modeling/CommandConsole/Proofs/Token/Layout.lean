/-
# Where the tokens of a line lie

The tokens of a line have spans that are not empty and follow each other. The
literal of a value has the span of its token, and an assigned literal lies in
the token that it is assigned in.

Key definition: `Token.Placed`.
Key theorem: `Tokens.ofCursor_placed`.
-/
import CommandConsole.Proofs.Literal.Layout
import CommandConsole.Token.Reader

namespace CommandConsole
namespace Token

/-- The token takes up characters of the line, and its literal is where it says. -/
def Placed (t : Token) : Prop :=
  t.span.start < t.span.stop ∧
    match t.kind with
    | .separator => True
    | .named _ none => True
    | .named _ (some v) => (v.isEmpty = true ∨ v.Laid) ∧ t.span.Encloses v.span
    | .value v => v.Laid ∧ v.span = t.span

theorem Placed.value {t : Token} {v : Literal} (h : t.Placed) (hk : t.kind = .value v) :
    v.Laid ∧ v.span = t.span := by
  have := h.2
  rwa [hk] at this

theorem Placed.named {t : Token} {name : String} {v : Literal} (h : t.Placed)
    (hk : t.kind = .named name (some v)) :
    (v.isEmpty = true ∨ v.Laid) ∧ t.span.Encloses v.span := by
  have := h.2
  rwa [hk] at this

variable {rules : TokenRules} {c stop : Cursor} {t : Token}

theorem nameAt?_reaches {name : String} (h : nameAt? rules c = some (name, stop)) :
    c.Reaches stop := by
  unfold nameAt? at h
  split at h
  · dsimp only at h
    split at h
    · cases h
    · cases h
      exact (Cursor.Reaches.advance c).trans ((Cursor.Reaches.advance _).trans (.skipWhile _ _))
  · cases h

/-- An assigned literal lies between the name and the end of the token. -/
theorem readAssigned_laid {v : Option Literal} (h : readAssigned rules c = .ok (v, stop)) :
    c.Reaches stop ∧ ∀ w ∈ v, (w.isEmpty = true ∨ w.Laid) ∧ c.offset ≤ w.span.start ∧
      w.span.stop = stop.offset := by
  have hadvance := Cursor.Reaches.advance c
  have hempty : ∀ w ∈ some (Literal.empty (.point c.advance.offset)),
      (w.isEmpty = true ∨ w.Laid) ∧ c.offset ≤ w.span.start ∧ w.span.stop = c.advance.offset := by
    intro w hw
    cases hw
    exact ⟨.inl rfl, hadvance.offset_le, rfl⟩
  unfold readAssigned at h
  split at h
  · dsimp only at h
    split at h
    · cases h
      exact ⟨hadvance, hempty⟩
    · split at h
      · cases h
        exact ⟨hadvance, hempty⟩
      · cases hr : readValue rules.maxDepth c.advance with
        | error f => rw [hr] at h; cases h
        | ok r =>
          rw [hr] at h
          cases h
          obtain ⟨hv, hspan, hreach⟩ := readValue_laid hr
          refine ⟨hadvance.trans hreach, fun w hw => ?_⟩
          cases hw
          rw [hspan]
          exact ⟨.inr hv, hadvance.offset_le, rfl⟩
  · cases h
    exact ⟨.refl _, by simp⟩

theorem readHere_placed {ch : Char} (hc : c.peek = some ch) (hb : isBlank ch = false)
    (h : readHere rules c = .ok (t, stop)) :
    t.Placed ∧ t.span = c.spanTo stop ∧ c.Reaches stop := by
  have hlength := readHere_rest_length_lt hc hb h
  unfold readHere at h
  split at h
  · rename_i name after hn
    have hname := nameAt?_reaches hn
    cases hr : readAssigned rules after with
    | error f => rw [hr] at h; cases h
    | ok r =>
      rw [hr] at h
      cases h
      obtain ⟨v, stop⟩ := r
      obtain ⟨hreach, hv⟩ := readAssigned_laid hr
      have hall := hname.trans hreach
      have hle := hname.offset_le
      refine ⟨⟨hall.offset_lt hlength, ?_⟩, rfl, hall⟩
      cases v with
      | none => trivial
      | some w =>
        obtain ⟨hw, hstart, hstop⟩ := hv w rfl
        exact ⟨hw, Nat.le_trans hle hstart, Nat.le_of_eq hstop⟩
  · cases hr : readValue rules.maxDepth c with
    | error f => rw [hr] at h; cases h
    | ok r =>
      rw [hr] at h
      cases h
      obtain ⟨hv, hspan, hreach⟩ := readValue_laid hr
      refine ⟨⟨hreach.offset_lt hlength, ?_⟩, rfl, hreach⟩
      simp only [ofValue, between]
      split
      · trivial
      · trivial
      · rename_i heq
        split at heq <;> cases heq
      · rename_i w heq
        split at heq
        · cases heq
        · cases heq
          exact ⟨hv, hspan⟩

theorem read?_placed (h : read? rules c = .ok (some (t, stop))) :
    t.Placed ∧ c.offset ≤ t.span.start ∧ t.span.stop = stop.offset := by
  unfold read? at h
  split at h
  · cases h
  · rename_i hne
    cases hr : readHere rules c.skipBlanks with
    | error f => rw [hr] at h; cases h
    | ok r =>
      rw [hr] at h
      cases h
      cases hd : dropBlanks c.rest with
      | nil => simp [Cursor.atEnd, hd] at hne
      | cons x xs =>
        have hx : c.skipBlanks.peek = some x := by simp [Cursor.peek, hd]
        obtain ⟨hp, hspan, -⟩ := readHere_placed hx (isBlank_of_dropBlanks hd) hr
        refine ⟨hp, ?_, ?_⟩ <;> rw [hspan]
        · exact (Cursor.Reaches.skipBlanks c).offset_le
        · rfl

end Token

namespace Tokens

/-- **The tokens of a line follow each other**, and each is where it says. -/
theorem ofCursor_placed (rules : TokenRules) (c : Cursor) :
    (∀ t ∈ (ofCursor rules c).toList, t.Placed ∧ c.offset ≤ t.span.start) ∧
      (ofCursor rules c).toList.Pairwise fun t u => t.span.stop ≤ u.span.start := by
  fun_induction ofCursor rules c with
  | case1 => simp [toList]
  | case2 => simp [toList]
  | case3 c t stop h ih =>
    obtain ⟨hp, hstart, hstop⟩ := Token.read?_placed h
    obtain ⟨hall, hpair⟩ := ih
    have hle := hp.1
    rw [toList_more, List.pairwise_cons]
    refine ⟨?_, fun u hu => ?_, hpair⟩
    · intro u hu
      rcases List.mem_cons.mp hu with rfl | hu
      · exact ⟨hp, hstart⟩
      · refine ⟨(hall u hu).1, ?_⟩
        have := (hall u hu).2
        omega
    · rw [hstop]
      exact (hall u hu).2

end Tokens
end CommandConsole
