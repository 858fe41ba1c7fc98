/-
# Reading a part of a text on its own

A literal that is read somewhere in a text is read alike when the text is cut
off behind it and begins with it. A bareword looks ahead for the end of a
group, but it takes the group only if it ends before the literal does, and that
stays so in the shorter text. What does change is where the scalar stands:
outside of containers a bareword ends at other characters. So the lemma is
about a literal with other containers around it, as long as there are some in
both texts or none in both, or its first character opens a group.

Key definition: `Cursor.CutTo`.
Key theorems: `scanBareword_moved`, `Derives.cut`.
-/
import CommandConsole.Proofs.Literal.Derivation
import CommandConsole.Proofs.Literal.Lookahead

namespace CommandConsole

/-! ### Scans somewhere else -/

/-- What two scans have read is the same, at whatever offset. -/
structure ScalarScan.SameText (s s' : ScalarScan) : Prop where
  text : s'.text = s.text
  rest : s'.after.rest = s.after.rest
  closed : s'.closed = s.closed

namespace ScalarScan.SameText

variable {s s' : ScalarScan}

theorem prepend (h : s.SameText s') (c : Char) : (s.prepend c).SameText (s'.prepend c) :=
  ⟨congrArg (c :: ·) h.text, h.rest, h.closed⟩

theorem literal (h : s.SameText s') (start start' : Nat) :
    (s'.literal start').unspanned = (s.literal start).unspanned := by
  simp only [ScalarScan.literal, Literal.unspanned, h.text]

end ScalarScan.SameText

/-- What a bareword does with a character that neither ends it nor escapes. -/
theorem scanBareword_take {place : Place} {c : Char} (he : ¬place.ends c = true) (hs : c ≠ '\\')
    (offset : Nat) (cs : List Char) :
    scanBareword place 0 offset (c :: cs) =
      if opensGroup c then
        match balancedGroup? (c :: cs) with
        | some n => (scanBareword place (n - 1) (offset + c.utf8Size) cs).prepend c
        | none => (scanBareword place 0 (offset + c.utf8Size) cs).prepend c
      else if place = .nested ∧ isBlank c then
        let s := scanBareword place 0 (offset + c.utf8Size) cs
        if s.text = [] then { s with stop := offset } else s.prepend c
      else (scanBareword place 0 (offset + c.utf8Size) cs).prepend c := by
  rw [scanBareword.eq_def]
  exact (if_neg he).trans (if_neg hs)

/-- A bareword does not depend on the offset where it stands. -/
theorem scanBareword_moved (place : Place) (verbatim offset offset' : Nat) (cs : List Char) :
    (scanBareword place verbatim offset cs).SameText (scanBareword place verbatim offset' cs) := by
  fun_induction scanBareword place verbatim offset cs generalizing offset' with
  | case1 => rw [scanBareword_nil]; exact ⟨rfl, rfl, rfl⟩
  | case2 offset c cs n ih =>
    rw [scanBareword]
    exact (ih _).prepend c
  | case3 offset c cs he => rw [scanBareword_ends he]; exact ⟨rfl, rfl, rfl⟩
  | case4 offset he =>
    unfold scanBareword
    rw [if_neg he]
    exact ⟨rfl, rfl, rfl⟩
  | case5 offset e ds _ ih =>
    rw [scanBareword_escape]
    exact (ih _).prepend e
  | case6 offset c cs he hs ho n hg ih =>
    rw [scanBareword_take he hs, if_pos ho, hg]
    exact (ih _).prepend c
  | case7 offset c cs he hs ho hg ih =>
    rw [scanBareword_take he hs, if_pos ho, hg]
    exact (ih _).prepend c
  | case8 offset c cs he hs ho hn s hempty ih =>
    rw [scanBareword_take he hs, if_neg ho, if_pos hn]
    have hsame := ih (offset' + c.utf8Size)
    rw [if_pos (hsame.text.trans hempty)]
    exact ⟨hsame.text, hsame.rest, hsame.closed⟩
  | case9 offset c cs he hs ho hn s hne ih =>
    rw [scanBareword_take he hs, if_neg ho, if_pos hn]
    have hsame := ih (offset' + c.utf8Size)
    rw [if_neg fun h => hne (hsame.text.symm.trans h)]
    exact hsame.prepend c
  | case10 offset c cs he hs ho hn ih =>
    rw [scanBareword_take he hs, if_neg ho, if_neg hn]
    exact (ih _).prepend c

theorem scanQuoted_moved (offset offset' : Nat) (cs : List Char) :
    (scanQuoted offset cs).SameText (scanQuoted offset' cs) := by
  fun_induction scanQuoted offset cs generalizing offset' with
  | case1 => exact ⟨rfl, rfl, rfl⟩
  | case2 => exact ⟨rfl, rfl, rfl⟩
  | case3 offset c cs hc ih =>
    rw [scanQuoted_escape hc]
    exact (ih _).prepend c
  | case4 offset c cs hc ih =>
    rw [scanQuoted, if_neg hc]
    exact (ih _).prepend '\\'
  | case5 offset c cs hq hs ih =>
    by_cases hlone : c = '\\' ∧ cs = []
    · obtain ⟨rfl, rfl⟩ := hlone
      exact ⟨rfl, rfl, rfl⟩
    · rw [scanQuoted_char hq (ne_backslash_of_not_lone hlone hs)]
      exact (ih _).prepend c

/-! ### Cursors in the shorter text -/

namespace Cursor

/-- The second cursor has the same text after it as the first one, without `ds` at its end. -/
def CutTo (ds : List Char) (c c' : Cursor) : Prop := c.rest = c'.rest ++ ds

variable {ds : List Char} {c c' : Cursor} {ch : Char}

namespace CutTo

theorem ne_nil (h : c.CutTo ds c') (hl : ds.length < c.rest.length) : c'.rest ≠ [] := by
  intro hc
  rw [h, hc, List.nil_append] at hl
  omega

theorem peek (h : c.CutTo ds c') (hl : ds.length < c.rest.length) : c'.peek = c.peek := by
  obtain ⟨x, xs, hx⟩ := List.exists_cons_of_ne_nil (h.ne_nil hl)
  rw [Cursor.peek, Cursor.peek, h, hx]
  rfl

theorem advance (h : c.CutTo ds c') (hl : ds.length < c.rest.length) :
    c.advance.CutTo ds c'.advance := by
  obtain ⟨x, xs, hx⟩ := List.exists_cons_of_ne_nil (h.ne_nil hl)
  rw [CutTo, Cursor.advance_rest, Cursor.advance_rest, h, hx]
  rfl

end CutTo

theorem dropBlanks_cut : ∀ cs : List Char, ds.length ≤ (dropBlanks (cs ++ ds)).length →
    dropBlanks (cs ++ ds) = dropBlanks cs ++ ds
  | [], hl => by
    cases ds with
    | nil => rfl
    | cons d ds =>
      rw [List.nil_append, dropBlanks] at hl
      split at hl
      · have := dropBlanks_length_le ds
        rw [List.length_cons] at hl
        omega
      · rename_i hd
        exact dropBlanks_cons (by simpa using hd) ds
  | c :: cs, hl => by
    by_cases hc : isBlank c = true
    · rw [List.cons_append, dropBlanks, if_pos hc] at hl
      rw [List.cons_append, dropBlanks, if_pos hc, dropBlanks, if_pos hc]
      exact dropBlanks_cut cs hl
    · rw [List.cons_append, dropBlanks, if_neg hc, dropBlanks, if_neg hc, List.cons_append]

namespace CutTo

theorem skipBlanks (h : c.CutTo ds c') (hl : ds.length ≤ c.skipBlanks.rest.length) :
    c.skipBlanks.CutTo ds c'.skipBlanks := by
  rw [Cursor.skipBlanks_rest, h] at hl
  rw [CutTo, Cursor.skipBlanks_rest, Cursor.skipBlanks_rest, h]
  exact dropBlanks_cut _ hl

theorem inside (h : c.CutTo ds c') (hl : ds.length < c.rest.length)
    (hi : ds.length ≤ c.inside.rest.length) : c.inside.CutTo ds c'.inside :=
  (h.advance hl).skipBlanks hi

/-- A structural character behind blanks stands in the shorter text too, if reading goes on behind
it. -/
theorem behind (h : c.CutTo ds c') (hc : c.skipBlanks.peek = some ch)
    (hl : ds.length ≤ c.skipBlanks.advance.rest.length) :
    c'.skipBlanks.peek = some ch ∧ c.skipBlanks.advance.CutTo ds c'.skipBlanks.advance := by
  have hlt := Cursor.advance_rest_length_lt hc
  have hskip := h.skipBlanks (by omega)
  exact ⟨(hskip.peek (by omega)).trans hc, hskip.advance (by omega)⟩

/-- The same with the blanks behind the structural character. -/
theorem behind_inside (h : c.CutTo ds c') (hc : c.skipBlanks.peek = some ch)
    (hl : ds.length ≤ c.skipBlanks.inside.rest.length) :
    c'.skipBlanks.peek = some ch ∧ c.skipBlanks.inside.CutTo ds c'.skipBlanks.inside := by
  have hle := (Reaches.skipBlanks c.skipBlanks.advance).rest_length_le
  have hbehind := h.behind hc (Nat.le_trans hl hle)
  exact ⟨hbehind.1, hbehind.2.skipBlanks hl⟩

/-- The bracket at the cursor, and what stands behind the blanks inside. -/
theorem opening (h : c.CutTo ds c') (ho : c.peek = some ch)
    (hl : ds.length ≤ c.inside.rest.length) :
    c'.peek = some ch ∧ c.inside.CutTo ds c'.inside := by
  have hlt := Cursor.advance_rest_length_lt ho
  have hle := (Reaches.skipBlanks c.advance).rest_length_le
  have hl' : ds.length < c.rest.length := by
    unfold Cursor.inside at hl
    omega
  exact ⟨(h.peek hl').trans ho, h.inside hl' hl⟩

/-! ### Scalars in the shorter text -/

variable {k j : Nat}

theorem word (h : c.CutTo ds c') (hk : k = 0 ↔ j = 0) (hw : c.BeginsWord k)
    (hl : ds.length ≤ (c.word k).after.rest.length) :
    c'.BeginsWord j ∧ (c.word k).SameText ((c'.word j).extend ds) := by
  have hplace : Place.ofLevel j = Place.ofLevel k := by simp [Place.ofLevel, hk]
  constructor
  · by_cases hr : c'.rest = []
    · -- the bareword is empty, so it stands outside of containers
      have hj : j = 0 := by
        refine Decidable.byContradiction fun hj => ?_
        have hnested : Place.ofLevel k = .nested := if_neg fun hk0 => hj (hk.mp hk0)
        obtain ⟨ch, cs, hcs⟩ : ∃ ch cs, c.rest = ch :: cs := by
          cases hcr : c.rest with
          | nil =>
            rw [Cursor.BeginsWord, Cursor.peek_of_rest_nil hcr] at hw
            exact absurd (hk.mp hw) hj
          | cons ch cs => exact ⟨ch, cs, rfl⟩
        rw [Cursor.BeginsWord, Cursor.peek_of_rest hcs] at hw
        have hends : Place.nested.ends ch = false := hw.2 fun hk0 => hj (hk.mp hk0)
        have hlt := scanBareword_length_lt cs c.offset hends
        rw [Cursor.word, hnested, hcs] at hl
        have hds : ds = ch :: cs := by rw [← hcs, h, hr, List.nil_append]
        rw [hds] at hl
        omega
      rw [Cursor.BeginsWord, Cursor.peek_of_rest_nil hr]
      exact hj
    · have hpos := List.length_pos_iff.mpr hr
      have hpeek : c'.peek = c.peek := h.peek (by rw [h, List.length_append]; omega)
      rw [Cursor.BeginsWord, hpeek]
      unfold Cursor.BeginsWord at hw
      split
      · rename_i hc
        rw [hc] at hw
        exact hk.mp hw
      · rename_i ch hc
        rw [hc] at hw
        exact ⟨hw.1, fun hj => hw.2 fun hk0 => hj (hk.mp hk0)⟩
  · rw [Cursor.word, h] at hl ⊢
    rw [scanBareword_append hl, Cursor.word, hplace]
    have hsame := scanBareword_moved (.ofLevel k) 0 c.offset c'.offset c'.rest
    refine ⟨hsame.text, ?_, hsame.closed⟩
    simp only [ScalarScan.extend, Cursor.extend_rest, hsame.rest]

theorem quoted (h : c.CutTo ds c') (hq : c.peek = some '"') (hc : c.quoted.closed = true)
    (hl : ds.length ≤ c.quoted.after.rest.length) :
    c'.peek = some '"' ∧ c'.quoted.closed = true ∧
      c.quoted.SameText (c'.quoted.extend ds) := by
  have hlt := Cursor.advance_rest_length_lt hq
  have hle : c.quoted.after.rest.length ≤ c.advance.rest.length := scanQuoted_after_length_le ..
  have hadvance : c.advance.rest = c'.advance.rest ++ ds := h.advance (by omega)
  have hclosed : (scanQuoted c.advance.offset c'.advance.rest).closed = true := by
    refine Decidable.byContradiction fun hopen => ?_
    cases ds with
    | nil =>
      rw [List.append_nil] at hadvance
      rw [Cursor.quoted, hadvance] at hc
      exact hopen hc
    | cons d ds =>
      have hbeyond : (scanQuoted c.advance.offset (c'.advance.rest ++ d :: ds)).after.rest.length ≤
          ds.length := scanQuoted_beyond d ds (eq_false_of_ne_true hopen)
      rw [← hadvance] at hbeyond
      rw [Cursor.quoted, List.length_cons] at hl
      omega
  have hsame := scanQuoted_moved c.advance.offset c'.advance.offset c'.advance.rest
  refine ⟨(h.peek (by omega)).trans hq, ?_, ?_⟩
  · rw [Cursor.quoted, hsame.closed, hclosed]
  · rw [Cursor.quoted, hadvance, scanQuoted_append ds hclosed]
    refine ⟨hsame.text, ?_, hsame.closed⟩
    simp only [Cursor.quoted, ScalarScan.extend, Cursor.extend_rest, hsame.rest]

end CutTo
end Cursor

/-! ### Derivations in the shorter text -/

open Cursor (CutTo)

variable {limit : Nat} {ds : List Char}

/-- The value at the cursor is read alike with `j` containers around it and with `k`. -/
def Cursor.AlikeAt (k j : Nat) (c : Cursor) : Prop :=
  (k = 0 ↔ j = 0) ∨ ∃ ch, c.peek = some ch ∧ opensGroup ch = true

theorem Cursor.alikeAt_succ (k j : Nat) (c : Cursor) : c.AlikeAt (k + 1) (j + 1) :=
  .inl (by simp)

mutual

/-- **A literal is read alike in a text that is cut off behind it.** -/
theorem Derives.cut : ∀ {k j : Nat} {c c' d : Cursor} {v : Literal}, Derives limit k c v d →
    j ≤ k → c.AlikeAt k j → c.CutTo ds c' → ds.length ≤ d.rest.length →
      ∃ w d', Derives limit j c' w d' ∧ d.CutTo ds d' ∧ w.unspanned = v.unspanned
  | k, j, c, c', _, _, .word hw, hjk, hat, hcut, hl => by
    have hk : k = 0 ↔ j = 0 := by
      rcases hat with hk | ⟨ch, hc, ho⟩
      · exact hk
      · rw [Cursor.BeginsWord, hc] at hw
        rw [hw.1] at ho
        cases ho
    obtain ⟨hw', hsame⟩ := hcut.word hk hw hl
    exact ⟨_, _, .word hw', hsame.rest.symm, hsame.literal _ _⟩
  | k, j, c, c', _, _, .quoted hq hc, hjk, hat, hcut, hl => by
    obtain ⟨hq', hc', hsame⟩ := hcut.quoted hq hc hl
    exact ⟨_, _, .quoted hq' hc', hsame.rest.symm, hsame.literal _ _⟩
  | k, j, c, c', _, _, .emptyList hk ho hc, hjk, hat, hcut, hl => by
    have hlt := Cursor.advance_rest_length_lt hc
    obtain ⟨ho', hinside⟩ := hcut.opening ho (by omega)
    have hc' := (hinside.peek (by omega)).trans hc
    refine ⟨_, _, .emptyList (by omega) ho' hc', hinside.advance (by omega), ?_⟩
    simp only [Literal.unspanned]
  | k, j, c, c', _, _, .list hk ho hv hvs, hjk, hat, hcut, hl => by
    have hle := hvs.reaches.rest_length_le
    have hle' := hv.reaches.rest_length_le
    obtain ⟨ho', hinside⟩ := hcut.opening ho (by omega)
    obtain ⟨w, d', hw, hd, hwv⟩ :=
      hv.cut (Nat.succ_le_succ hjk) (Cursor.alikeAt_succ k j _) hinside (by omega)
    obtain ⟨ws, e', hws, he, hwsvs⟩ := hvs.cut hjk hd hl
    refine ⟨_, _, .list (by omega) ho' hw hws, he, ?_⟩
    simp only [Literal.unspanned, Literal.unspannedItems, hwv, hwsvs]
  | k, j, c, c', _, _, .emptyMap hk ho hc, hjk, hat, hcut, hl => by
    have hlt := Cursor.advance_rest_length_lt hc
    obtain ⟨ho', hinside⟩ := hcut.opening ho (by omega)
    have hc' := (hinside.peek (by omega)).trans hc
    refine ⟨_, _, .emptyMap (by omega) ho' hc', hinside.advance (by omega), ?_⟩
    simp only [Literal.unspanned]
  | k, j, c, c', _, _, .map hk ho hv hvs, hjk, hat, hcut, hl => by
    have hle := hvs.reaches.rest_length_le
    have hle' := hv.reaches.rest_length_le
    obtain ⟨ho', hinside⟩ := hcut.opening ho (by omega)
    obtain ⟨w, d', hw, hd, hwv⟩ := hv.cut hjk hinside (by omega)
    obtain ⟨ws, e', hws, he, hwsvs⟩ := hvs.cut hjk hd hl
    refine ⟨_, _, .map (by omega) ho' hw hws, he, ?_⟩
    simp only [Literal.unspanned, Literal.unspannedEntries, hwv, hwsvs]

theorem DerivesItems.cut : ∀ {k j : Nat} {c c' e : Cursor} {vs : List Literal},
    DerivesItems limit (k + 1) c vs e → j ≤ k → c.CutTo ds c' → ds.length ≤ e.rest.length →
      ∃ ws e', DerivesItems limit (j + 1) c' ws e' ∧ e.CutTo ds e' ∧
        Literal.unspannedItems ws = Literal.unspannedItems vs
  | k, j, c, c', _, _, .close hc, hjk, hcut, hl => by
    obtain ⟨hc', hafter⟩ := hcut.behind hc hl
    exact ⟨_, _, .close hc', hafter, rfl⟩
  | k, j, c, c', _, _, .more hc hv hvs, hjk, hcut, hl => by
    have hle := hvs.reaches.rest_length_le
    have hle' := hv.reaches.rest_length_le
    obtain ⟨hc', hinside⟩ := hcut.behind_inside hc (by omega)
    obtain ⟨w, d', hw, hd, hwv⟩ :=
      hv.cut (Nat.succ_le_succ hjk) (Cursor.alikeAt_succ k j _) hinside (by omega)
    obtain ⟨ws, e', hws, he, hwsvs⟩ := hvs.cut hjk hd hl
    refine ⟨_, _, .more hc' hw hws, he, ?_⟩
    simp only [Literal.unspannedItems, hwv, hwsvs]

theorem DerivesEntry.cut : ∀ {k j : Nat} {c c' e : Cursor} {entry : Literal × Literal},
    DerivesEntry limit (k + 1) c entry e → j ≤ k → c.CutTo ds c' → ds.length ≤ e.rest.length →
      ∃ entry' e', DerivesEntry limit (j + 1) c' entry' e' ∧ e.CutTo ds e' ∧
        entry'.1.unspanned = entry.1.unspanned ∧ entry'.2.unspanned = entry.2.unspanned
  | k, j, c, c', _, _, .mk hkey hc hvalue, hjk, hcut, hl => by
    have hle := hvalue.reaches.rest_length_le
    have hle' := Nat.le_trans hle (Cursor.reaches_behind _).rest_length_le
    obtain ⟨key, d', hkey', hd, hkeys⟩ :=
      hkey.cut (Nat.succ_le_succ hjk) (Cursor.alikeAt_succ k j _) hcut (by omega)
    obtain ⟨hc', hinside⟩ := hd.behind_inside hc (by omega)
    obtain ⟨value, e', hvalue', he, hvalues⟩ :=
      hvalue.cut (Nat.succ_le_succ hjk) (Cursor.alikeAt_succ k j _) hinside hl
    exact ⟨_, _, .mk hkey' hc' hvalue', he, hkeys, hvalues⟩

theorem DerivesEntries.cut : ∀ {k j : Nat} {c c' e : Cursor} {es : List (Literal × Literal)},
    DerivesEntries limit (k + 1) c es e → j ≤ k → c.CutTo ds c' → ds.length ≤ e.rest.length →
      ∃ ws e', DerivesEntries limit (j + 1) c' ws e' ∧ e.CutTo ds e' ∧
        Literal.unspannedEntries ws = Literal.unspannedEntries es
  | k, j, c, c', _, _, .close hc, hjk, hcut, hl => by
    obtain ⟨hc', hafter⟩ := hcut.behind hc hl
    exact ⟨_, _, .close hc', hafter, rfl⟩
  | k, j, c, c', _, _, .more hc hv hvs, hjk, hcut, hl => by
    have hle := hvs.reaches.rest_length_le
    have hle' := hv.reaches.rest_length_le
    obtain ⟨hc', hinside⟩ := hcut.behind_inside hc (by omega)
    obtain ⟨w, d', hw, hd, hwv⟩ := hv.cut hjk hinside (by omega)
    obtain ⟨ws, e', hws, he, hwsvs⟩ := hvs.cut hjk hd hl
    refine ⟨_, _, .more hc' hw hws, he, ?_⟩
    simp only [Literal.unspannedEntries, hwv, hwsvs]

end

end CommandConsole
