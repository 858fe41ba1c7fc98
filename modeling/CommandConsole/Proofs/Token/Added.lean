/-
# What is typed at the end of a line

A bare word, a name and a name with a bare word assigned are each read as one
token where a line ends with blanks, or with what they do not disturb. A
bracket that opens a container there cannot be read: the text ends where the
container has to go on.

Key definitions: `Bare`, `IsOpening`, `Token.IsWord`, `Token.BreaksAt`.
Key theorems: `Token.ofCursor_word`, `Token.ofCursor_flag`, `Token.ofCursor_assigned`,
`Token.ofCursor_bracket`, `Token.ofCursor_assignedBracket`.
-/
import CommandConsole.Completion.Candidates
import CommandConsole.Proofs.Token.Extension

namespace CommandConsole

/-- A word of ordinary characters that does not begin with a dash. -/
structure Bare (text : String) : Prop where
  word : isWord text = true
  chars : ∀ ch ∈ text.toList, ch ∉ structuralChars
  head : text.toList.head? ≠ some '-'

namespace Bare

variable {text : String}

instance : Decidable (Bare text) :=
  decidable_of_iff (isWord text = true ∧
      text.toList.all (fun ch => !structuralChars.contains ch) = true ∧
      text.toList.head? ≠ some '-')
    ⟨fun h => ⟨h.1, by simpa using h.2.1, h.2.2⟩, fun h => ⟨h.word, by simpa using h.chars, h.head⟩⟩

theorem ne_nil (h : Bare text) : text.toList ≠ [] := (isWord_iff.mp h.word).1

/-- The word is plain wherever it is not the separator. -/
theorem plain (h : Bare text) {rules : TokenRules} (hs : text ≠ rules.separator) :
    rules.Plain text where
  ne_nil := h.ne_nil
  chars := fun ch hch => by
    have hs := h.chars ch hch
    simp only [structuralChars, List.mem_cons, List.not_mem_nil, not_or] at hs
    refine ⟨(isWord_iff.mp h.word).2 ch hch, hs.2.2.2.2.2.2.2.1, ?_⟩
    simp [opensGroup, hs]
  dashes := fun cs hcs => h.head (by rw [hcs]; rfl)
  separator := hs

theorem unclosing (h : Bare text) : Unclosing text.toList := by
  intro d hd
  have hs := h.chars d hd
  simp only [structuralChars, List.mem_cons, List.not_mem_nil, not_or] at hs
  exact ⟨hs.2.2.2.1, hs.2.2.2.2.2.1, hs.2.2.2.2.2.2.1⟩

theorem dropBlanks_eq (h : Bare text) : dropBlanks text.toList = text.toList := by
  obtain ⟨ch, cs, hcs⟩ := List.exists_cons_of_ne_nil h.ne_nil
  rw [hcs]
  exact dropBlanks_cons ((isWord_iff.mp h.word).2 ch (by simp [hcs])) cs

theorem equals (h : Bare text) : '=' ∉ text.toList := fun hm => h.chars '=' hm (by decide)

theorem beginsWith_dashes (h : Bare text) : beginsWith text "--" = false := by
  by_contra hne
  have hb : beginsWith text "--" = true := by simpa using hne
  obtain ⟨cs, hcs⟩ : "--".toList <+: text.toList := List.isPrefixOf_iff_prefix.mp hb
  exact h.head (by rw [← hcs]; rfl)

theorem unclosing_flag (h : Bare text) : Unclosing (longFlag text).toList := by
  intro d hd
  rw [longFlag, Piece.toList_dashes] at hd
  rcases List.mem_cons.mp hd with rfl | hd
  · decide
  · rcases List.mem_cons.mp hd with rfl | hd
    · decide
    · exact h.unclosing d hd

end Bare

/-- The text opens a list or a map. -/
def IsOpening (text : String) : Prop := text = "[" ∨ text = "\x7b"

namespace IsOpening

variable {text : String}

theorem toList (h : IsOpening text) : ∃ b, (b = '[' ∨ b = '\x7b') ∧ text.toList = [b] := by
  rcases h with rfl | rfl
  · exact ⟨'[', .inl rfl, rfl⟩
  · exact ⟨'\x7b', .inr rfl, rfl⟩

theorem unclosing (h : IsOpening text) : Unclosing text.toList := by
  rcases h with rfl | rfl <;> simp [Unclosing]

theorem dropBlanks_eq (h : IsOpening text) : dropBlanks text.toList = text.toList := by
  rcases h with rfl | rfl <;> exact dropBlanks_cons (by decide) _

end IsOpening

theorem Bare.not_isOpening {text : String} (h : Bare text) : ¬IsOpening text := by
  rintro (rfl | rfl)
  · exact h.chars '[' (by decide) (by decide)
  · exact h.chars '\x7b' (by decide) (by decide)

/-! ### Literals -/

/-- A bracket at the end of a text opens a container that has to go on. -/
theorem readValue_opening {limit : Nat} {c : Cursor} {b : Char} (hb : b = '[' ∨ b = '\x7b')
    (hc : c.rest = [b]) (hl : 0 < limit) : ∃ f expected, readValue limit c = .error f ∧
      f.kind = .tokenExpected expected ∧ f.position = c.offset + byteLength [b] := by
  have hrest : (Reading.start c).cursor.rest = [b] := hc
  have hdepth : (Reading.start c).depth < limit := hl
  have hadvance : c.advance = ⟨c.offset + b.utf8Size, []⟩ := by rw [Cursor.advance, hc]
  have hend : (Reading.start c).cursor.advance.skipBlanks = ⟨c.offset + b.utf8Size, []⟩ := by
    change c.advance.skipBlanks = _
    rw [hadvance]
    rfl
  have hpeek : ∀ ch : Char, (Reading.start c).cursor.advance.skipBlanks.peek ≠ some ch := by
    intro ch
    rw [hend]
    simp [Cursor.peek]
  have hinside : ∃ next : Reading, (Reading.start c).step limit = .go next ∧
      next.phase = .value ∧ next.opened ≠ [] ∧ next.cursor = ⟨c.offset + b.utf8Size, []⟩ := by
    rcases hb with rfl | rfl
    · exact ⟨_, (Reading.beginValue_bracket hrest).trans
        (Reading.enter_inside hdepth (hpeek ']') _ _), rfl, List.cons_ne_nil _ _, hend⟩
    · exact ⟨_, (Reading.beginValue_brace hrest).trans
        (Reading.enter_inside hdepth (hpeek '\x7d') _ _), rfl, List.cons_ne_nil _ _, hend⟩
  obtain ⟨next, hgo, hphase, hopened, hcursor⟩ := hinside
  have hstuck : next.step limit = next.expect next.freshCloser true next.cursor := by
    rw [Reading.step, hphase]
    unfold Reading.beginValue
    rw [hcursor]
    exact if_neg hopened
  have hrun : readValue limit c = .error ⟨.tokenExpected ⟨next.freshCloser, true⟩,
      next.cursor.offset, next.frames, next.lastScalar⟩ :=
    (Reading.run_go hgo).trans (Reading.run_stuck hstuck)
  exact ⟨_, _, hrun, rfl, by rw [hcursor]; simp⟩

namespace Token

variable {rules : TokenRules} {c d : Cursor} {t : Token} {ds : List Char} {name w : String}

theorem shortFlags?_of_named {assigned : Option Literal} (h : t.kind = .named name assigned) :
    t.shortFlags? = none := by
  have hword : t.word? = none := by rw [word?, h]
  rw [shortFlags?, hword]

/-! ### The last token -/

section Last

theorem skipBlanks_last (hd : dropBlanks d.rest = []) (hds : dropBlanks ds = ds) :
    (d.extend ds).skipBlanks.rest = ds := by
  rw [Cursor.skipBlanks_rest, Cursor.extend_rest, dropBlanks_append (allBlank_of_dropBlanks hd), hds]

variable (hd : dropBlanks d.rest = []) (hds : dropBlanks ds = ds) (hne : ds ≠ [])

include hd hds hne

/-- A token that takes all that is typed is the last one. -/
theorem ofCursor_last {stop : Cursor}
    (h : readHere rules (d.extend ds).skipBlanks = .ok (t, stop)) (hs : stop.rest = []) :
    ∃ n, Tokens.ofCursor rules (d.extend ds) = .more t (.finished n) := by
  have hrest := skipBlanks_last hd hds
  have hread : read? rules (d.extend ds) = .ok (some (t, stop)) :=
    read?_eq_some_iff.mpr ⟨by rwa [← Cursor.skipBlanks_rest, hrest], h⟩
  have hend : read? rules stop = .ok none := read?_eq_none_iff.mpr (by rw [hs]; rfl)
  exact ⟨_, by rw [Tokens.ofCursor_some hread, Tokens.ofCursor_none hend]⟩

theorem ofCursor_lastBroken {f : LiteralFailure}
    (h : readHere rules (d.extend ds).skipBlanks = .error f) :
    ∃ start, Tokens.ofCursor rules (d.extend ds) = .broken start f := by
  have hrest := skipBlanks_last hd hds
  have hend : (d.extend ds).skipBlanks.atEnd = false := by
    obtain ⟨ch, cs, hcs⟩ := List.exists_cons_of_ne_nil hne
    rw [Cursor.atEnd, hrest, hcs]
    rfl
  have hread : read? rules (d.extend ds) = .error f := by
    rw [read?, if_neg (by simp [hend]), h]
    rfl
  exact ⟨_, Tokens.ofCursor_error hread⟩

end Last

/-- The token is a scalar with the text `w`, or the separator if that is its text. -/
def IsWord (separator w : String) (t : Token) : Prop :=
  t.shortFlags? = none ∧ ((t.isSeparator = true ∧ w = separator) ∨
    ∃ span, t.kind = .value (.scalar w span) ∧ t.word? = some w)

/-- **A bare word at the end of a line** is a scalar with its own text, or the separator. -/
theorem ofCursor_word (hw : Bare w) (hd : dropBlanks d.rest = []) :
    ∃ t n, Tokens.ofCursor rules (d.extend w.toList) = .more t (.finished n) ∧
      t.IsWord rules.separator w := by
  -- the separator matters to what the token is, and not to how far it goes
  have hne : w ≠ "" := by
    rintro rfl
    exact hw.ne_nil rfl
  have hplain : ({ rules with separator := "" } : TokenRules).Plain w := hw.plain hne
  have hrest : (d.extend w.toList).skipBlanks.rest = w.toList ++ [] := by
    rw [skipBlanks_last hd hw.dropBlanks_eq, List.append_nil]
  have hstops : Place.topLevel.Stops [] := fun ch hch => by cases hch
  have hnone : nameAt? { rules with separator := "" } (d.extend w.toList).skipBlanks = none :=
    nameAt?_of_not_dashes hplain.ne_nil hplain.dashes hrest hstops
  have hname : nameAt? rules (d.extend w.toList).skipBlanks = none := hnone
  obtain ⟨span, stop, hread, hstop⟩ : ∃ span stop,
      readValue rules.maxDepth (d.extend w.toList).skipBlanks = .ok (.scalar w span, stop) ∧
        stop.rest = [] := readValue_plain hplain hrest hstops
  have htext : (d.extend w.toList).skipBlanks.textTo stop = w :=
    Cursor.textTo_of_rest (by rw [hrest, hstop])
  have hhere := readHere_of_readValue hname hread
  obtain ⟨n, hn⟩ := ofCursor_last hd hw.dropBlanks_eq hw.ne_nil hhere hstop
  refine ⟨_, n, hn, ?_⟩
  rw [ofValue, htext]
  by_cases hs : w = rules.separator
  · rw [if_pos hs]
    exact ⟨rfl, .inl ⟨rfl, hs⟩⟩
  · rw [if_neg hs]
    have hraw : (between (.value (.scalar w span)) (d.extend w.toList).skipBlanks stop).raw = w :=
      htext
    have hquote : w.toList.head? ≠ some '"' := by
      intro hq
      have hstruct := hw.chars '"' (List.mem_of_mem_head? hq)
      exact hstruct (by decide)
    have hword : (between (.value (.scalar w span)) (d.extend w.toList).skipBlanks stop).word? =
        some w := by
      rw [word?, hraw]
      exact if_neg hquote
    refine ⟨?_, .inr ⟨span, rfl, hword⟩⟩
    rw [shortFlags?, hraw]
    split
    · rename_i cs _ hcs
      exact absurd (by rw [hcs]; rfl) hw.head
    · rfl

/-- **A name at the end of a line** is read as it is written. -/
theorem ofCursor_flag (hn : isWord name = true) (he : '=' ∉ name.toList)
    (hd : dropBlanks d.rest = []) :
    ∃ t n, Tokens.ofCursor rules (d.extend (longFlag name).toList) = .more t (.finished n) ∧
      t.kind = .named name none := by
  have htext : (longFlag name).toList = '-' :: '-' :: name.toList := Piece.toList_dashes name
  have hdrop : dropBlanks (longFlag name).toList = (longFlag name).toList := by
    rw [htext]
    exact dropBlanks_cons (by decide) _
  have hrest : (d.extend (longFlag name).toList).skipBlanks.rest =
      '-' :: '-' :: (name.toList ++ []) := by
    rw [skipBlanks_last hd hdrop, htext, List.append_nil]
  obtain ⟨t, stop, hhere, hstop, hk⟩ : ∃ t stop,
      readHere rules (d.extend (longFlag name).toList).skipBlanks = .ok (t, stop) ∧
        stop.rest = [] ∧ (Piece.name name).Reads t :=
    Piece.readHere_name hn (fun _ => he) hrest fun ch hch => by cases hch
  obtain ⟨n, hlast⟩ := ofCursor_last hd hdrop (by rw [htext]; simp) hhere hstop
  exact ⟨t, n, hlast, hk⟩

/-- The characters of `--name=value`. -/
def assignment (name : String) (value : List Char) : List Char :=
  '-' :: '-' :: (name.toList ++ '=' :: value)

theorem dropBlanks_assignment (name : String) (value : List Char) :
    dropBlanks (assignment name value) = assignment name value :=
  dropBlanks_cons (by decide) _

theorem unclosing_assignment (h : Bare name) {value : List Char} (hv : Unclosing value) :
    Unclosing (assignment name value) := by
  intro d hd
  have hmem : d = '-' ∨ d ∈ name.toList ∨ d = '=' ∨ d ∈ value := by simpa [assignment] using hd
  rcases hmem with rfl | hd | rfl | hd
  · decide
  · exact h.unclosing d hd
  · decide
  · exact hv d hd

/-- Where a value is assigned, the value is read behind the equals sign. -/
theorem nameAt?_assignment (hn : isWord name = true) (he : '=' ∉ name.toList)
    (ha : rules.assignSyntax = true) (hd : dropBlanks d.rest = []) (value : List Char) :
    ∃ behind, nameAt? rules (d.extend (assignment name value)).skipBlanks = some (name, behind) ∧
      behind.rest = '=' :: value := by
  have hrest := skipBlanks_last hd (dropBlanks_assignment name value)
  have hequals : rules.inName '=' = false := by simp [TokenRules.inName, ha]
  exact nameAt?_name hn (fun _ => he) hrest (fun ch hch => Option.some.inj hch ▸ hequals)

/-- **A name with a bare word assigned** is read as it is written. -/
theorem ofCursor_assigned (hn : isWord name = true) (he : '=' ∉ name.toList)
    (ha : rules.assignSyntax = true) (hw : Bare w) (hd : dropBlanks d.rest = []) :
    ∃ t n span, Tokens.ofCursor rules (d.extend (assignment name w.toList)) =
        .more t (.finished n) ∧ t.kind = .named name (some (.scalar w span)) := by
  obtain ⟨behind, hname, hrest⟩ := nameAt?_assignment hn he ha hd w.toList
  have hne : w ≠ "" := by
    rintro rfl
    exact hw.ne_nil rfl
  have hplain : ({ rules with separator := "" } : TokenRules).Plain w := hw.plain hne
  have hvalue : behind.advance.rest = w.toList ++ [] := by simp [hrest]
  obtain ⟨span, stop, hread, hstop⟩ : ∃ span stop,
      readValue rules.maxDepth behind.advance = .ok (.scalar w span, stop) ∧ stop.rest = [] :=
    readValue_plain hplain hvalue fun ch hch => by cases hch
  obtain ⟨ch, cs, hcs⟩ := List.exists_cons_of_ne_nil hw.ne_nil
  have hpeek : behind.advance.peek = some ch := Cursor.peek_of_rest (by rw [hvalue, hcs, List.append_nil])
  have hassigned : readAssigned rules behind = .ok (some (.scalar w span), stop) := by
    rw [readAssigned_value ha (Cursor.peek_of_rest hrest) hpeek
      ((isWord_iff.mp hw.word).2 ch (by simp [hcs])), hread]
    rfl
  obtain ⟨n, hlast⟩ := ofCursor_last hd (dropBlanks_assignment name w.toList) (by simp [assignment])
    (readHere_of_nameAt? hname hassigned) hstop
  exact ⟨_, n, span, hlast, rfl⟩

/-- The literal at the end of the tokens fails at the end of the text, where it has to go on. -/
def BreaksAt (stop : Nat) (e : Tokens) : Prop :=
  ∃ start f expected, e = .broken start f ∧ f.kind = .tokenExpected expected ∧ f.position = stop

/-- **A bracket at the end of a line** fails where the line ends. -/
theorem ofCursor_bracket (hw : IsOpening w) (hl : 0 < rules.maxDepth) (hd : dropBlanks d.rest = []) :
    BreaksAt (d.offset + byteLength (d.rest ++ w.toList))
      (Tokens.ofCursor rules (d.extend w.toList)) := by
  obtain ⟨b, hb, hwb⟩ := hw.toList
  rw [hwb]
  have hdrop : dropBlanks [b] = [b] := hwb ▸ hw.dropBlanks_eq
  have hrest := skipBlanks_last hd hdrop
  obtain ⟨f, expected, hf, hk, hp⟩ := readValue_opening hb hrest hl
  have hname : nameAt? rules (d.extend [b]).skipBlanks = none := by
    unfold nameAt?
    rw [hrest]
    rcases hb with rfl | rfl <;> rfl
  have hhere := readHere_of_readValue_error hname hf
  obtain ⟨start, hstart⟩ := ofCursor_lastBroken hd hdrop (List.cons_ne_nil _ _) hhere
  refine ⟨start, f, expected, hstart, hk, ?_⟩
  have hend := (Cursor.Reaches.skipBlanks (d.extend [b])).end_eq
  rw [hrest] at hend
  exact hp.trans hend

/-- **So does a bracket that is assigned.** -/
theorem ofCursor_assignedBracket (hn : isWord name = true) (he : '=' ∉ name.toList)
    (ha : rules.assignSyntax = true) (hw : IsOpening w) (hl : 0 < rules.maxDepth)
    (hd : dropBlanks d.rest = []) :
    BreaksAt (d.offset + byteLength (d.rest ++ assignment name w.toList))
      (Tokens.ofCursor rules (d.extend (assignment name w.toList))) := by
  obtain ⟨b, hb, hwb⟩ := hw.toList
  rw [hwb]
  obtain ⟨behind, hname, hrest⟩ := nameAt?_assignment hn he ha hd [b]
  have hvalue : behind.advance.rest = [b] := by simp [hrest]
  have hblank : isBlank b = false := by rcases hb with rfl | rfl <;> decide
  obtain ⟨f, expected, hf, hk, hp⟩ := readValue_opening hb hvalue hl
  have hhere : readHere rules (d.extend (assignment name [b])).skipBlanks = .error f := by
    unfold readHere
    rw [hname]
    dsimp only
    rw [readAssigned_value ha (Cursor.peek_of_rest hrest) (Cursor.peek_of_rest hvalue) hblank, hf]
    rfl
  obtain ⟨start, hstart⟩ := ofCursor_lastBroken hd (dropBlanks_assignment name [b])
    (by simp [assignment]) hhere
  refine ⟨start, f, expected, hstart, hk, ?_⟩
  have hreach : (d.extend (assignment name [b])).Reaches behind.advance :=
    ((Cursor.Reaches.skipBlanks _).trans (nameAt?_reaches hname)).trans (.advance _)
  have hend := hreach.end_eq
  rw [hvalue] at hend
  exact hp.trans hend

end Token
end CommandConsole
