/-
# Tokens that lie in a text

The tokens of a text lie in it, with the literals in them. The line stops at a
boundary, or it fails at one.

Key definitions: `Token.LiesIn`, `Tokens.LieIn`, `TokenCursor.LiesIn`.
Key theorem: `Tokens.ofText_lieIn`.
-/
import CommandConsole.Proofs.Literal.Located
import CommandConsole.Proofs.Token.Tiling

namespace CommandConsole

/-- The literal that the token is, or that is assigned in it. -/
def Token.literal? (t : Token) : Option Literal :=
  match t.kind with
  | .separator => none
  | .named _ assigned => assigned
  | .value v => some v

structure Token.LiesIn (text : String) (t : Token) : Prop where
  span : t.span.LiesIn text
  literal : ∀ v ∈ t.literal?, v.LiesIn text

/-- The tokens lie in the text, and so does the place where they stop. -/
def Tokens.LieIn (text : String) : Tokens → Prop
  | .finished stop => isBoundary text stop = true
  | .broken _ failure => isBoundary text failure.position = true
  | .more t rest => t.LiesIn text ∧ rest.LieIn text

structure TokenCursor.LiesIn (text : String) (c : TokenCursor) : Prop where
  position : isBoundary text c.position = true
  tokens : c.tokens.LieIn text

theorem TokenCursor.LiesIn.past {text : String} {t : Token} {rest : Tokens} (ht : t.LiesIn text)
    (hrest : rest.LieIn text) : (TokenCursor.past t rest).LiesIn text :=
  ⟨ht.span.stop_isBoundary, hrest⟩

namespace Token

variable {text : String} {rules : TokenRules} {c stop : Cursor} {t : Token} {f : LiteralFailure}

theorem LiesIn.value {v : Literal} (h : t.LiesIn text) (hk : t.kind = .value v) :
    v.LiesIn text :=
  h.literal v (by rw [literal?, hk]; rfl)

theorem LiesIn.assigned {name : String} {v : Literal} (h : t.LiesIn text)
    (hk : t.kind = .named name (some v)) : v.LiesIn text :=
  h.literal v (by rw [literal?, hk]; rfl)

theorem readAssigned_liesIn {v : Option Literal} (hc : (Cursor.start text).Reaches c)
    (h : readAssigned rules c = .ok (v, stop)) : ∀ w ∈ v, w.LiesIn text := by
  have hadvance : (Cursor.start text).Reaches c.advance := hc.trans (.advance c)
  have hempty : (Literal.empty (.point c.advance.offset)).LiesIn text :=
    .empty (.point (isBoundary_iff.mpr ⟨_, hadvance, rfl⟩))
  unfold readAssigned at h
  intro w hw
  split at h
  · dsimp only at h
    split at h
    · cases h
      cases hw
      exact hempty
    · split at h
      · cases h
        cases hw
        exact hempty
      · obtain ⟨r, hr, he⟩ := exists_of_map_eq_ok h
        cases he
        cases hw
        exact readValue_liesIn hadvance hr
  · cases h
    cases hw

theorem readAssigned_error_isBoundary (hc : (Cursor.start text).Reaches c)
    (h : readAssigned rules c = .error f) : isBoundary text f.position = true := by
  unfold readAssigned at h
  split at h
  · dsimp only at h
    split at h
    · cases h
    · split at h
      · cases h
      · exact readValue_error_isBoundary (hc.trans (.advance c)) (error_of_map_eq_error h)
  · cases h

theorem readHere_literal_liesIn (hc : (Cursor.start text).Reaches c)
    (h : readHere rules c = .ok (t, stop)) : ∀ v ∈ t.literal?, v.LiesIn text := by
  intro v hv
  rcases readHere_cases h with ⟨name, after, assigned, hn, hr, rfl⟩ | ⟨w, -, hr, rfl⟩
  · exact readAssigned_liesIn (hc.trans (nameAt?_reaches hn)) hr v hv
  · by_cases hs : c.textTo stop = rules.separator
    · simp [ofValue, hs, between, literal?] at hv
    · simp only [ofValue, if_neg hs, between, literal?, Option.mem_some_iff] at hv
      subst hv
      exact readValue_liesIn hc hr

theorem readHere_error_isBoundary (hc : (Cursor.start text).Reaches c)
    (h : readHere rules c = .error f) : isBoundary text f.position = true := by
  rcases readHere_error_cases h with ⟨name, after, hn, hr⟩ | ⟨-, hr⟩
  · exact readAssigned_error_isBoundary (hc.trans (nameAt?_reaches hn)) hr
  · exact readValue_error_isBoundary hc hr

theorem read?_liesIn (hc : (Cursor.start text).Reaches c)
    (h : read? rules c = .ok (some (t, stop))) : t.LiesIn text := by
  obtain ⟨-, hhere⟩ := read?_eq_some_iff.mp h
  have hskip : (Cursor.start text).Reaches c.skipBlanks := hc.trans (.skipBlanks c)
  refine ⟨?_, readHere_literal_liesIn hskip hhere⟩
  rw [span_of_readHere hhere]
  exact .spanTo hskip (read?_reaches h).1

end Token

namespace Tokens

/-- The tokens from a place of a text on lie in it. -/
theorem ofCursor_lieIn (rules : TokenRules) {text : String} (c : Cursor)
    (hc : (Cursor.start text).Reaches c) : (ofCursor rules c).LieIn text := by
  have hskip : (Cursor.start text).Reaches c.skipBlanks := hc.trans (.skipBlanks c)
  fun_induction ofCursor rules c with
  | case1 c f hread =>
    obtain ⟨-, hhere⟩ := Token.read?_eq_error_iff.mp hread
    exact Token.readHere_error_isBoundary hskip hhere
  | case2 c hread => exact isBoundary_iff.mpr ⟨_, hskip, rfl⟩
  | case3 c t stop hread ih =>
    have hstop := hskip.trans (Token.read?_reaches hread).1
    exact ⟨Token.read?_liesIn hc hread, ih hstop (hstop.trans (.skipBlanks stop))⟩

/-- **The tokens of a text lie in it.** -/
theorem ofText_lieIn (rules : TokenRules) (text : String) : (ofText rules text).LieIn text :=
  ofCursor_lieIn rules _ (.refl _)

end Tokens
end CommandConsole
