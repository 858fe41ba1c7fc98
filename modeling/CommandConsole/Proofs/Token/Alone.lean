/-
# Texts that stand alone on a line

A text that is all there is on a line may hold blanks. It is one token that says
the text itself if every blank in it stands in a group, it is read as it is
written, and it begins neither a group nor a name and is not the separator; and
in no other case. Put in quotes, every text is such a token.

Key definitions: `TokenRules.ReadsValue`, `Unbroken`, `StandsAlone`.
Key theorems: `scanBareword_whole`, `unbroken_of_scanBareword`, `readsValue_scalar_iff`,
`readsValue_quote`.
-/
import CommandConsole.Proofs.Line.Elements
import CommandConsole.Proofs.Token.Word

namespace CommandConsole

/-- All there is on the line is one token, the value `v`. -/
def TokenRules.ReadsValue (rules : TokenRules) (line : String) (v : Literal) : Prop :=
  ∃ t stop, Tokens.ofText rules line = .more t (.finished stop) ∧ t.kind = .value v

/-- Every blank stands in a group. The first `inside` characters belong to a group that has begun
before them. -/
def Unbroken : (inside : Nat) → List Char → Prop
  | _, [] => True
  | n + 1, _ :: cs => Unbroken n cs
  | 0, c :: cs => isBlank c = false ∧ Unbroken (groupTail c cs) cs

instance decidableUnbroken : ∀ (n : Nat) (cs : List Char), Decidable (Unbroken n cs)
  | _, [] => isTrue trivial
  | n + 1, _ :: cs => decidableUnbroken n cs
  | 0, c :: cs =>
    have := decidableUnbroken (groupTail c cs) cs
    inferInstanceAs (Decidable (_ ∧ _))

/-- On a line with nothing else the text is read as a token that says it. -/
structure StandsAlone (rules : TokenRules) (s : String) : Prop where
  ne_empty : s ≠ ""
  typable : Typable rules [] s
  unbroken : Unbroken 0 s.toList

instance decidableStandsAlone (rules : TokenRules) (s : String) : Decidable (StandsAlone rules s) :=
  decidable_of_iff (s ≠ "" ∧ Typable rules [] s ∧ Unbroken 0 s.toList)
    ⟨fun ⟨h, ht, hu⟩ => ⟨h, ht, hu⟩, fun h => ⟨h.ne_empty, h.typable, h.unbroken⟩⟩

variable {rules : TokenRules} {stop : Cursor} {s line : String} {v : Literal}

/-! ### Scans -/

theorem length_text_scanBareword_le (place : Place) (n offset : Nat) (cs : List Char) :
    (scanBareword place n offset cs).text.length ≤ cs.length := by
  fun_induction scanBareword place n offset cs <;>
    simp only [ScalarScan.prepend, List.length_cons] at * <;> grind

theorem length_text_scanQuoted_le (offset : Nat) (cs : List Char) :
    (scanQuoted offset cs).text.length ≤ cs.length := by
  fun_induction scanQuoted offset cs <;>
    simp only [ScalarScan.prepend, List.length_cons, List.length_nil] at * <;> omega

/-- A text that is read as it is written, with every blank in a group, is read to its end. -/
theorem scanBareword_whole : ∀ {cs : List Char} {n : Nat}, n ≤ cs.length → AsWritten [] n cs →
    Unbroken n cs → ∀ offset : Nat,
      ∃ stop, scanBareword .topLevel n offset cs = ⟨cs, stop, ⟨stop, []⟩, true⟩
  | [], n, _, _, _, offset => ⟨offset, scanBareword_nil ..⟩
  | c :: cs, n + 1, hn, hw, hu, offset => by
    obtain ⟨stop, hscan⟩ := scanBareword_whole (Nat.le_of_succ_le_succ hn) hw hu
      (offset + c.utf8Size)
    exact ⟨stop, by rw [scanBareword, hscan]; rfl⟩
  | c :: cs, 0, _, hw, hu, offset => by
    obtain ⟨hb, hu⟩ := hu
    rw [AsWritten, List.append_nil] at hw
    by_cases hs : c = '\\'
    · -- a lone backslash ends the text
      rw [if_pos hs] at hw
      subst hs hw
      exact ⟨offset + 1, by unfold scanBareword; simp [Place.ends, hb]⟩
    · rw [if_neg hs] at hw
      obtain ⟨stop, hscan⟩ := scanBareword_whole hw.1 hw.2 hu (offset + c.utf8Size)
      exact ⟨stop, by rw [scanBareword_topLevel hb hs, hscan]; rfl⟩

/-- **No other text is**: a blank ends it, or its text is another one. -/
theorem unbroken_of_scanBareword : ∀ {cs : List Char} {n offset : Nat},
    (scanBareword .topLevel n offset cs).text = cs → AsWritten [] n cs ∧ Unbroken n cs
  | [], _, _, _ => ⟨trivial, trivial⟩
  | c :: cs, n + 1, offset, h => by
    rw [scanBareword] at h
    rw [AsWritten, Unbroken]
    exact unbroken_of_scanBareword (List.cons.inj h).2
  | c :: cs, 0, offset, h => by
    have hb : isBlank c = false := by
      by_contra hb
      have hends : Place.topLevel.ends c = true := by simpa [Place.ends] using hb
      rw [scanBareword_ends hends] at h
      cases h
    rw [AsWritten, Unbroken, List.append_nil]
    by_cases hs : c = '\\'
    · subst hs
      cases cs with
      | nil => exact ⟨by rw [if_pos rfl], hb, trivial⟩
      | cons e ds =>
        -- the backslash itself is missing in the text
        rw [scanBareword_escape] at h
        have hle := length_text_scanBareword_le .topLevel 0 (offset + 1 + e.utf8Size) ds
        have hlength := congrArg List.length h
        simp only [ScalarScan.prepend, List.length_cons] at hlength
        omega
    · rw [scanBareword_topLevel hb hs] at h
      obtain ⟨hw, hu⟩ := unbroken_of_scanBareword (List.cons.inj h).2
      rw [if_neg hs]
      exact ⟨⟨groupTail_le_length c cs, hw⟩, hb, hu⟩

/-! ### Lines -/

/-- A line is one value if a value is read behind the blanks, and nothing but blanks is left. -/
theorem readsValue_iff : rules.ReadsValue line v ↔ dropBlanks line.toList ≠ [] ∧
    ∃ t stop, Token.readHere rules (Cursor.start line).skipBlanks = .ok (t, stop) ∧
      dropBlanks stop.rest = [] ∧ t.kind = .value v := by
  constructor
  · rintro ⟨t, last, hts, hk⟩
    obtain ⟨stop, hread, hrest⟩ := Token.read?_of_more hts
    obtain ⟨hne, hhere⟩ := Token.read?_eq_some_iff.mp hread
    refine ⟨hne, t, stop, hhere, ?_, hk⟩
    cases hnext : Token.read? rules stop with
    | error f =>
      rw [Tokens.ofCursor_error hnext] at hrest
      cases hrest
    | ok r =>
      cases r with
      | none => exact Token.read?_eq_none_iff.mp hnext
      | some r =>
        rw [Tokens.ofCursor_some hnext] at hrest
        cases hrest
  · rintro ⟨hne, t, stop, hhere, hrest, hk⟩
    refine ⟨t, stop.skipBlanks.offset, ?_, hk⟩
    rw [Tokens.ofText, Tokens.ofCursor_some (Token.read?_eq_some_iff.mpr ⟨hne, hhere⟩),
      Tokens.ofCursor_none (Token.read?_eq_none_iff.mpr hrest)]

/-- A value that takes up the line, which neither begins with a name nor is the separator. -/
theorem readsValue_of_readValue (hfull : BeginsFull line.toList)
    (hname : rules.beginsName line.toList = false) (hsep : line ≠ rules.separator)
    (h : readValue rules.maxDepth (Cursor.start line) = .ok (v, stop)) (hstop : stop.rest = []) :
    rules.ReadsValue line v := by
  have hblanks : dropBlanks line.toList = line.toList := by
    simpa using hfull.dropBlanks_append []
  have hstart : (Cursor.start line).skipBlanks = Cursor.start line :=
    Cursor.skipBlanks_eq_self hblanks
  have htext : (Cursor.start line).textTo stop = line :=
    Cursor.textTo_of_rest (by rw [hstop, List.append_nil]; rfl)
  obtain ⟨t, hhere, hk⟩ := Token.readHere_value_iff.mpr
    ⟨nameAt?_eq_none_iff.mpr hname, by rwa [htext], h⟩
  refine readsValue_iff.mpr ⟨?_, t, stop, by rw [hstart, hhere], by rw [hstop]; rfl, hk⟩
  rw [hblanks]
  simpa using hfull.append_ne_nil []

/-- In quotes every text is one value. -/
theorem readsValue_quote (hsep : quote s ≠ rules.separator) :
    ∃ span, rules.ReadsValue (quote s) (.scalar s span) := by
  have hquote := toList_quote s
  obtain ⟨span, stop, hread, hstop⟩ : ∃ span stop,
      readValue rules.maxDepth (Cursor.start (quote s)) = .ok (.scalar s span, stop) ∧
        stop.rest = [] :=
    readValue_quote (List.append_nil _).symm fun _ h => by cases h
  refine ⟨span, readsValue_of_readValue ⟨_, _, hquote, by decide⟩ ?_ hsep hread hstop⟩
  rw [← Bool.not_eq_true, TokenRules.beginsName_iff, hquote]
  rintro ⟨ch, ds, hcs, -⟩
  cases (List.cons.inj hcs).1

theorem StandsAlone.readsValue (h : StandsAlone rules s) :
    ∃ span, rules.ReadsValue s (.scalar s span) := by
  obtain ⟨ch, cs, hs⟩ := List.exists_cons_of_ne_nil (mt String.toList_eq_nil_iff.mp h.ne_empty)
  have hb : isBlank ch = false := by
    have hu := h.unbroken
    rw [hs] at hu
    exact hu.1
  have ho : opensGroup ch = false := by simpa [hs] using h.typable.head
  obtain ⟨stop, hscan⟩ := scanBareword_whole (Nat.zero_le _) h.typable.asWritten h.unbroken 0
  have hread : readValue rules.maxDepth (Cursor.start s) =
      .ok (.scalar s ⟨0, stop⟩, ⟨stop, []⟩) := by
    rw [readValue_word rules.maxDepth (c := .start s) hs ho, Cursor.start, hscan,
      String.ofList_toList]
  exact ⟨_, readsValue_of_readValue ⟨ch, cs, hs, hb⟩ h.typable.noName h.typable.noSeparator hread
    rfl⟩

/-- A scalar with as many characters as are left of the line is a bareword: the quotes of another
one are not in its text. -/
theorem word_of_readValue {limit : Nat} {c : Cursor} {span : Span} (hne : c.rest ≠ [])
    (hlong : c.rest.length ≤ s.toList.length)
    (h : readValue limit c = .ok (.scalar s span, stop)) :
    c.BeginsWord 0 ∧ (scanBareword .topLevel 0 c.offset c.rest).text = s.toList ∧
      (scanBareword .topLevel 0 c.offset c.rest).after = stop := by
  generalize hv : Literal.scalar s span = w at h
  cases readValue_iff_derives.mp h with
  | word hword =>
    refine ⟨hword, ?_, rfl⟩
    rw [(Literal.scalar.inj hv).1, String.toList_ofList]
    rfl
  | quoted hq hc =>
    have hle : c.quoted.text.length ≤ c.rest.tail.length := by
      rw [← Cursor.advance_rest]
      exact length_text_scanQuoted_le _ _
    have hpos := List.length_pos_iff.mpr hne
    rw [(Literal.scalar.inj hv).1, String.toList_ofList] at hlong
    rw [List.length_tail] at hle
    omega
  | _ => cases hv

/-- No other text is read as itself: a scalar has no more characters than it is written with. -/
theorem StandsAlone.of_readsValue {span : Span} (h : rules.ReadsValue s (.scalar s span)) :
    StandsAlone rules s := by
  obtain ⟨hne, t, stop, hhere, -, hk⟩ := readsValue_iff.mp h
  obtain ⟨hname, hsep, hread⟩ := Token.readHere_value_iff.mp ⟨t, hhere, hk⟩
  rw [nameAt?_eq_none_iff] at hname
  have hfull : (Cursor.start s).skipBlanks.rest ≠ [] := by rwa [Cursor.skipBlanks_rest]
  have hsuffix : (Cursor.start s).skipBlanks.rest <:+ s.toList := by
    obtain ⟨blanks, hblanks, -⟩ := Cursor.Reaches.skipBlanks (Cursor.start s)
    exact ⟨blanks, hblanks.symm⟩
  generalize (Cursor.start s).skipBlanks = c at *
  obtain ⟨hword, htext, hstop⟩ := word_of_readValue hfull hsuffix.length_le hread
  -- with blanks in front of it the scalar would be too short
  have hrest : c.rest = s.toList := by
    refine hsuffix.eq_of_length (Nat.le_antisymm hsuffix.length_le ?_)
    rw [← htext]
    exact length_text_scanBareword_le ..
  rw [hrest] at htext hstop hname hfull
  obtain ⟨hw, hu⟩ := unbroken_of_scanBareword htext
  obtain ⟨last, hscan⟩ := scanBareword_whole (Nat.zero_le _) hw hu c.offset
  rw [hscan] at hstop
  have hraw : c.textTo stop = s :=
    Cursor.textTo_of_rest (by rw [hrest, ← hstop, List.append_nil])
  rw [hraw] at hsep
  obtain ⟨ch, cs, hs⟩ := List.exists_cons_of_ne_nil hfull
  have ho : opensGroup ch = false := by
    rw [Cursor.BeginsWord, Cursor.peek_of_rest (hrest.trans hs)] at hword
    exact hword.1
  exact ⟨mt String.toList_eq_nil_iff.mpr hfull, ⟨by simp [hs, ho], hname, hsep, hw⟩, hu⟩

/-- **A text is read as itself exactly if it stands alone.** -/
theorem readsValue_scalar_iff :
    (∃ span, rules.ReadsValue s (.scalar s span)) ↔ StandsAlone rules s :=
  ⟨fun ⟨_, h⟩ => .of_readsValue h, StandsAlone.readsValue⟩

end CommandConsole
