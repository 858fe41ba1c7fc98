/-
# The tokens of a line and the text between them

Every token of a line is written where its span says, and in front of the first
token, between any two and behind the last there is nothing but blanks. A line
may be cut off at either end of a token: the part in front of the cut has the
tokens that stand there, although a bareword looks ahead for the end of a group
as far as the text goes.

Key definition: `Tokens.Tile`.
Key theorems: `Tokens.ofCursor_tile`, `Token.ReadTo.of_extend`, `Tokens.ofText_tiles`.
-/
import CommandConsole.Proofs.Token.Extension

namespace CommandConsole

/-! ### Cursors -/

namespace Cursor

theorem skipFrom_used {p : Char → Bool} : ∀ (offset : Nat) (cs : List Char),
    ∃ used, cs = used ++ (skipFrom p offset cs).rest ∧ ∀ ch ∈ used, p ch = true
  | _, [] => ⟨[], rfl, by simp⟩
  | offset, ch :: cs => by
    by_cases hp : p ch = true
    · obtain ⟨used, hu, hall⟩ := skipFrom_used (p := p) (offset + ch.utf8Size) cs
      refine ⟨ch :: used, ?_, List.forall_mem_cons.mpr ⟨hp, hall⟩⟩
      rw [skipFrom, if_pos hp, List.cons_append, ← hu]
    · refine ⟨[], ?_, by simp⟩
      rw [skipFrom, if_neg hp, List.nil_append]

/-- The blanks that are skipped. -/
theorem exists_blanks (c : Cursor) : ∃ blanks, AllBlank blanks ∧
    c.rest = blanks ++ c.skipBlanks.rest ∧
      c.skipBlanks.offset = c.offset + byteLength blanks := by
  obtain ⟨used, hused, hall⟩ := skipFrom_used (p := isBlank) c.offset c.rest
  obtain ⟨cs, hcs, hoffset⟩ := Reaches.skipBlanks c
  have hsame : used = cs := List.append_cancel_right (hused.symm.trans hcs)
  exact ⟨used, hall, hused, hsame ▸ hoffset⟩

/-- A text is what stands in front of a place of it, and the rest. -/
theorem toList_textBefore {text : String} {d : Cursor} (h : (start text).Reaches d) :
    text.toList = (textBefore text d.offset).toList ++ d.rest := by
  obtain ⟨pre, hpre, hoffset⟩ := h
  have htext : text.toList = pre ++ d.rest := hpre
  have hlength : d.offset = byteLength pre := by rw [hoffset, start, Nat.zero_add]
  rw [hlength, textBefore_append htext, String.toList_ofList, htext]

theorem start_textBefore {text : String} {d : Cursor} (h : (start text).Reaches d) :
    start text = (start (textBefore text d.offset)).extend d.rest := by
  have htext := toList_textBefore h
  rw [start, start, extend, ← htext]

end Cursor

/-! ### Tokens side by side -/

/-- The tokens are written one behind the other in `cs`, which begins at the offset, with blanks
around them: up to the end of `cs`, or up to the literal that cannot be read. -/
def Tokens.Tile : Tokens → Nat → List Char → Prop
  | .finished stop, offset, cs => AllBlank cs ∧ stop = offset + byteLength cs
  | .broken start _, offset, cs => ∃ blanks rest, AllBlank blanks ∧ cs = blanks ++ rest ∧
      rest ≠ [] ∧ start = offset + byteLength blanks
  | .more t ts, offset, cs => ∃ blanks rest, AllBlank blanks ∧ t.raw.toList ≠ [] ∧
      cs = blanks ++ (t.raw.toList ++ rest) ∧ t.span.start = offset + byteLength blanks ∧
      t.span.stop = t.span.start + byteLength t.raw.toList ∧ ts.Tile t.span.stop rest

/-- A token that stands among others is written in the text, where its span says. -/
theorem Tokens.Tile.written {t : Token} {after : List Token} : ∀ {ts : Tokens} {offset : Nat}
    {cs : List Char} {before : List Token}, ts.Tile offset cs → ts.toList = before ++ t :: after →
      ∃ pre post, t.raw.toList ≠ [] ∧ cs = pre ++ (t.raw.toList ++ post) ∧
        t.span.start = offset + byteLength pre ∧
        t.span.stop = t.span.start + byteLength t.raw.toList
  | .finished stop, _, _, before, _, hts => by simp [toList] at hts
  | .broken start f, _, _, before, _, hts => by simp [toList] at hts
  | .more u ts, offset, cs, [], h, hts => by
    obtain ⟨rfl, -⟩ := List.cons.inj hts
    obtain ⟨blanks, rest, -, hne, hcs, hstart, hstop, -⟩ := h
    exact ⟨blanks, rest, hne, hcs, hstart, hstop⟩
  | .more u ts, offset, cs, v :: before, h, hts => by
    obtain ⟨blanks, rest, -, -, hcs, hstart, hstop, htile⟩ := h
    obtain ⟨pre, post, hne, hrest, hstart', hstop'⟩ := htile.written (List.cons.inj hts).2
    refine ⟨blanks ++ (u.raw.toList ++ pre), post, hne, ?_, ?_, hstop'⟩
    · rw [hcs, hrest, List.append_assoc, List.append_assoc]
    · rw [hstart', hstop, hstart, byteLength_append, byteLength_append, Nat.add_assoc,
        Nat.add_assoc]

namespace Token

variable {rules : TokenRules} {c stop d : Cursor} {t : Token} {ts : List Token} {ds : List Char}

/-- A token has the span and the text between the two cursors. -/
theorem readHere_between (h : readHere rules c = .ok (t, stop)) : t = between t.kind c stop := by
  rcases readHere_cases h with ⟨name, behind, assigned, -, -, rfl⟩ | ⟨v, -, -, rfl⟩
  · rfl
  · rfl

theorem span_of_readHere (h : readHere rules c = .ok (t, stop)) : t.span = c.spanTo stop :=
  congrArg Token.span (readHere_between h)

theorem raw_of_readHere (h : readHere rules c = .ok (t, stop)) : t.raw = c.textTo stop :=
  congrArg Token.raw (readHere_between h)

/-- A token is read from the first cursor behind the blanks, and takes some text there. -/
theorem read?_reaches (h : read? rules c = .ok (some (t, stop))) :
    c.skipBlanks.Reaches stop ∧ stop.rest.length < c.skipBlanks.rest.length := by
  obtain ⟨hne, hhere⟩ := read?_eq_some_iff.mp h
  obtain ⟨ch, cs, hc⟩ := List.exists_cons_of_ne_nil hne
  have hb := isBlank_of_dropBlanks hc
  rw [← Cursor.skipBlanks_rest] at hc
  have hpeek := Cursor.peek_of_rest hc
  exact ⟨(readHere_placed hpeek hb hhere).2.2, readHere_rest_length_lt hpeek hb hhere⟩

theorem ReadTo.snoc : ∀ {ts : List Token} {c : Cursor}, ReadTo rules c (ts ++ [t]) d →
    ∃ e, ReadTo rules c ts e ∧ read? rules e = .ok (some (t, d))
  | [], c, h => by
    cases h with
    | cons hread hs =>
      cases hs
      exact ⟨c, .nil c, hread⟩
  | u :: us, c, h => by
    cases h with
    | cons hread hs =>
      obtain ⟨e, he, hlast⟩ := ReadTo.snoc hs
      exact ⟨e, .cons hread he, hlast⟩

theorem ReadTo.append {e : Cursor} {us : List Token} (h : ReadTo rules c ts d)
    (hs : ReadTo rules d us e) : ReadTo rules c (ts ++ us) e := by
  induction h with
  | nil => exact hs
  | cons hread _ ih => exact .cons hread (ih hs)

theorem ReadTo.reaches (h : ReadTo rules c ts d) : c.Reaches d := by
  induction h with
  | nil => exact .refl _
  | cons hread _ ih => exact ((Cursor.Reaches.skipBlanks _).trans (read?_reaches hread).1).trans ih

end Token

open Token in
/-- **The tokens of a text fill it**, apart from blanks. -/
theorem Tokens.ofCursor_tile (rules : TokenRules) (c : Cursor) :
    (ofCursor rules c).Tile c.offset c.rest := by
  fun_induction ofCursor rules c with
  | case1 c f hread =>
    obtain ⟨blanks, hblanks, hrest, hoffset⟩ := c.exists_blanks
    refine ⟨blanks, c.skipBlanks.rest, hblanks, hrest, fun hempty => ?_, hoffset⟩
    rw [Cursor.skipBlanks_rest] at hempty
    rw [read?_eq_none_iff.mpr hempty] at hread
    cases hread
  | case2 c hread =>
    obtain ⟨blanks, hblanks, hrest, hoffset⟩ := c.exists_blanks
    rw [Cursor.skipBlanks_rest, read?_eq_none_iff.mp hread, List.append_nil] at hrest
    rw [← hrest] at hblanks hoffset
    exact ⟨hblanks, hoffset⟩
  | case3 c t stop hread ih =>
    obtain ⟨blanks, hblanks, hrest, hoffset⟩ := c.exists_blanks
    obtain ⟨hreaches, hlt⟩ := read?_reaches hread
    obtain ⟨-, hhere⟩ := read?_eq_some_iff.mp hread
    have hspan := span_of_readHere hhere
    have hstop : t.span.stop = stop.offset := by rw [hspan]; rfl
    obtain ⟨used, hused, hend⟩ := hreaches
    have hraw : t.raw.toList = used := by
      have htext : c.skipBlanks.textTo stop = String.ofList used :=
        Cursor.textTo_of_rest (by rw [String.toList_ofList, hused])
      rw [raw_of_readHere hhere, htext, String.toList_ofList]
    refine ⟨blanks, stop.rest, hblanks, fun hempty => ?_, ?_, ?_, ?_, ?_⟩
    · rw [hraw] at hempty
      rw [hused, hempty, List.nil_append] at hlt
      exact Nat.lt_irrefl _ hlt
    · rw [hraw, ← hused, ← hrest]
    · rw [hspan]
      exact hoffset
    · rw [hraw, hstop, hend, hspan]
      rfl
    · rw [hstop]
      exact ih

/-! ### Tokens of a line that is cut off -/

namespace Token

variable {rules : TokenRules} {c stop d : Cursor} {t : Token} {ts : List Token} {ds : List Char}

/-- A token that ends before some part of a text is read without this part. -/
theorem read?_of_extend (h : read? rules (c.extend ds) = .ok (some (t, stop)))
    (hl : ds.length ≤ stop.rest.length) :
    ∃ stop', stop = stop'.extend ds ∧ read? rules c = .ok (some (t, stop')) := by
  obtain ⟨-, hhere⟩ := read?_eq_some_iff.mp h
  have hlt := (read?_reaches h).2
  have hskip : (c.extend ds).skipBlanks = c.skipBlanks.extend ds :=
    Cursor.skipBlanks_of_extend (by omega)
  rw [hskip] at hhere hlt
  obtain ⟨stop', rfl, hhere'⟩ := readHere_of_extend hhere hl
  refine ⟨stop', rfl, read?_eq_some_iff.mpr ⟨fun hempty => ?_, hhere'⟩⟩
  rw [← Cursor.skipBlanks_rest] at hempty
  simp only [Cursor.extend_rest, hempty, List.nil_append, List.length_append] at hlt
  omega

/-- **So are all the tokens in front of it.** -/
theorem ReadTo.of_extend : ∀ {ts : List Token} {c : Cursor}, ReadTo rules (c.extend ds) ts d →
    ds.length ≤ d.rest.length → ∃ d', d = d'.extend ds ∧ ReadTo rules c ts d'
  | [], c, h, _ => by
    cases h
    exact ⟨c, rfl, .nil c⟩
  | t :: ts, c, h, hl => by
    cases h with
    | cons hread hs =>
      obtain ⟨stop', rfl, hread'⟩ := read?_of_extend hread (Nat.le_trans hl hs.rest_length_le)
      obtain ⟨d', rfl, hs'⟩ := ReadTo.of_extend hs hl
      exact ⟨d', rfl, .cons hread' hs'⟩

/-- A text that is cut off behind some tokens, with blanks between, has these tokens. -/
theorem ReadTo.ofText_textBefore {text : String} {e : Cursor} (h : ReadTo rules (.start text) ts d)
    {blanks : List Char} (hb : AllBlank blanks) (hrest : d.rest = blanks ++ e.rest)
    (hoffset : e.offset = d.offset + byteLength blanks) :
    Tokens.ofText rules (textBefore text e.offset) = .prepend ts (.finished e.offset) := by
  have hreaches : (Cursor.start text).Reaches e := h.reaches.trans ⟨blanks, hrest, hoffset⟩
  rw [Cursor.start_textBefore hreaches] at h
  obtain ⟨d', rfl, hread⟩ := h.of_extend (by simp [hrest])
  -- only the blanks are left in front of the cut
  have hd : d'.rest = blanks := List.append_cancel_right hrest
  have hempty : dropBlanks d'.rest = [] := by rw [hd, dropBlanks_of_allBlank hb]
  obtain ⟨bs, -, hbs, hstop⟩ := d'.exists_blanks
  rw [Cursor.skipBlanks_rest, hempty, List.append_nil, hd] at hbs
  rw [Tokens.ofText, hread.ofCursor, Tokens.ofCursor_none (read?_eq_none_iff.mpr hempty), hstop,
    ← hbs, hoffset]
  rfl

/-- **The tokens of a text that is cut off at a token**: those before it, and with it those up to
it. -/
theorem ReadTo.cuts {text : String} {e : Cursor} (h : ReadTo rules (.start text) ts e)
    (hlast : read? rules e = .ok (some (t, d))) :
    Tokens.ofText rules (textBefore text t.span.start) = .prepend ts (.finished t.span.start) ∧
      Tokens.ofText rules (textBefore text t.span.stop) =
        .prepend (ts ++ [t]) (.finished t.span.stop) := by
  have hspan := span_of_readHere (read?_eq_some_iff.mp hlast).2
  obtain ⟨blanks, hblanks, hrest, hoffset⟩ := e.exists_blanks
  rw [hspan]
  exact ⟨h.ofText_textBefore hblanks hrest hoffset,
    (h.append (.cons hlast (.nil d))).ofText_textBefore .nil rfl rfl⟩

end Token

/-- Tokens that are among others stand at some place of the line. -/
theorem Tokens.exists_of_toList : ∀ {ts : Tokens} {before after : List Token},
    ts.toList = before ++ after → ∃ tail, ts = .prepend before tail
  | ts, [], _, _ => ⟨ts, rfl⟩
  | .finished stop, t :: before, after, h => by cases h
  | .broken start f, t :: before, after, h => by cases h
  | .more u rest, t :: before, after, h => by
    rw [Tokens.toList_more, List.cons_append] at h
    obtain ⟨rfl, hrest⟩ := List.cons.inj h
    obtain ⟨tail, rfl⟩ := exists_of_toList hrest
    exact ⟨tail, rfl⟩

/-- Reading comes to an end behind the last token, at the end of the text or at a literal that
cannot be read. -/
theorem Token.ReadTo.exists_end (rules : TokenRules) (c : Cursor) :
    ∃ d, ReadTo rules c (Tokens.ofCursor rules c).toList d ∧
      (read? rules d = .ok none ∨ ∃ f, read? rules d = .error f) := by
  fun_induction Tokens.ofCursor rules c with
  | case1 c f hread => exact ⟨c, .nil c, .inr ⟨f, hread⟩⟩
  | case2 c hread => exact ⟨c, .nil c, .inl hread⟩
  | case3 c t stop hread ih =>
    obtain ⟨d, hd, hend⟩ := ih
    exact ⟨d, .cons hread hd, hend⟩

/-- **The tokens of a line tile it, and a cut between them leaves them as they are.** Reading
comes to an end. Each token is written where its span says; the spans follow each other, with only
blanks between. A line that is cut off in front of a token has the tokens before it, and one that
is cut off behind it has that token too. -/
theorem Tokens.ofText_tiles (rules : TokenRules) (text : String) :
    (∃ d, Token.ReadTo rules (.start text) (ofText rules text).toList d ∧
      (Token.read? rules d = .ok none ∨ ∃ f, Token.read? rules d = .error f)) ∧
    (ofText rules text).Tile 0 text.toList ∧
    ((ofText rules text).toList.Pairwise fun t u => t.span.stop ≤ u.span.start) ∧
    ∀ before t after, (ofText rules text).toList = before ++ t :: after →
      (∃ pre post, text.toList = pre ++ (t.raw.toList ++ post) ∧ t.span.start = byteLength pre ∧
        t.span.stop = byteLength (pre ++ t.raw.toList) ∧ t.span.start < t.span.stop) ∧
      ofText rules (textBefore text t.span.start) = .prepend before (.finished t.span.start) ∧
      ofText rules (textBefore text t.span.stop) =
        .prepend (before ++ [t]) (.finished t.span.stop) := by
  have htile : (ofText rules text).Tile 0 text.toList := ofCursor_tile rules (.start text)
  obtain ⟨hplaced, hpairwise⟩ := ofCursor_placed rules (.start text)
  refine ⟨Token.ReadTo.exists_end rules _, htile, hpairwise, fun before t after hts => ⟨?_, ?_⟩⟩
  · obtain ⟨pre, post, -, htext, hstart, hstop⟩ := htile.written hts
    have hmem : t ∈ (ofText rules text).toList := by simp [hts]
    rw [Nat.zero_add] at hstart
    rw [hstart] at hstop
    exact ⟨pre, post, htext, hstart, by rw [hstop, byteLength_append], (hplaced t hmem).1.1⟩
  · have hlist : (ofText rules text).toList = (before ++ [t]) ++ after := by simp [hts]
    obtain ⟨tail, htail⟩ := exists_of_toList hlist
    obtain ⟨d, hread, -⟩ := Token.ReadTo.exists_of_ofCursor htail
    obtain ⟨e, hread, hlast⟩ := hread.snoc
    exact hread.cuts hlast

/-- A line that is cut off behind a group has the bareword with this group. -/
theorem Tokens.ofText_tiles_group :
    let line := "a[ b] c"
    ∃ t u, (ofText default line).toList = [] ++ t :: [u] ∧ t.raw = "a[ b]" ∧
      ofText default (textBefore line t.span.stop) = .prepend [t] (.finished t.span.stop) := by
  intro line
  have hraw : (ofText default line).toList.map (·.raw) = ["a[ b]", "c"] := by decide +kernel
  obtain ⟨t, rest, hts, ht, hrest⟩ := List.map_eq_cons_iff.mp hraw
  obtain ⟨u, rest, rfl, -, hnil⟩ := List.map_eq_cons_iff.mp hrest
  obtain rfl := List.map_eq_nil_iff.mp hnil
  obtain ⟨-, -, -, hcuts⟩ := ofText_tiles default line
  exact ⟨t, u, hts, ht, (hcuts [] t [u] hts).2.2⟩

end CommandConsole
