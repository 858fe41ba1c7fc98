/-
# The spellings of a literal are derived

Inside a container a spelling stands in front of a separator or a closing
character. Whatever these are, the grammar derives the literal from it, and
the derivation ends with the spelling, up to blanks. Unlike the run of the
reader, a derivation says where it ends, so the spellings of the parts of a
container can be put behind each other.

Key theorems: `Spells.derives`, `Writes.derives`.
-/
import CommandConsole.Proofs.Literal.Derivation

namespace CommandConsole

variable {limit : Nat} {c : Cursor} {rest : List Char}

/-- Between `c` and a cursor in front of `rest` the grammar derives what is the literal `t`, with
`k` containers around it. -/
def Literal.DerivedAt (limit k : Nat) (c : Cursor) (t : Literal) (rest : List Char) : Prop :=
  ∃ v d, Derives limit k c v d ∧ v.unspanned = t.filled.unspanned ∧
    dropBlanks d.rest = dropBlanks rest

/-- The same of the items of a list, from the first one to its closing bracket. -/
def DerivedItemsAt (limit k : Nat) (c : Cursor) (is : List Literal) (rest : List Char) : Prop :=
  ∃ v d vs e, Derives limit k c v d ∧ DerivesItems limit k d vs e ∧
    Literal.unspannedItems (v :: vs) = Literal.unspannedItems (Literal.filledItems is) ∧
    e.rest = rest

/-- The same of the entries of a map. -/
def DerivedEntriesAt (limit k : Nat) (c : Cursor) (es : List (Literal × Literal))
    (rest : List Char) : Prop :=
  ∃ entry d entries e, DerivesEntry limit k c entry d ∧ DerivesEntries limit k d entries e ∧
    Literal.unspannedEntries (entry :: entries) =
      Literal.unspannedEntries (Literal.filledEntries es) ∧
    e.rest = rest

/-! ### Structural characters -/

namespace Cursor

variable {d : Cursor} {ch : Char} {cs : List Char}

/-- A structural character behind blanks. -/
theorem peek_behind (h : dropBlanks d.rest = dropBlanks (ch :: cs)) (hb : isBlank ch = false) :
    d.skipBlanks.peek = some ch ∧ d.skipBlanks.advance.rest = cs ∧
      d.skipBlanks.inside.rest = dropBlanks cs := by
  have hrest : d.skipBlanks.rest = ch :: cs := by
    rw [Cursor.skipBlanks_rest, h, dropBlanks_cons hb]
  refine ⟨Cursor.peek_of_rest hrest, ?_, ?_⟩
  · rw [Cursor.advance_rest, hrest]
    rfl
  · rw [Cursor.inside, Cursor.skipBlanks_rest, Cursor.advance_rest, hrest]
    rfl

theorem inside_rest (h : c.rest = ch :: cs) : c.inside.rest = dropBlanks cs := by
  rw [Cursor.inside, Cursor.skipBlanks_rest, Cursor.advance_rest, h]
  rfl

end Cursor

/-! ### Scalars -/

theorem Literal.derivedAt_quote {t : Literal} {text : String} (k : Nat) (span : Span)
    (ht : t.filled = .scalar text span) (hr : c.rest = (quote text).toList ++ rest) :
    t.DerivedAt limit k c rest := by
  rw [toList_quote, List.cons_append, List.append_assoc] at hr
  obtain ⟨stop, hscan⟩ := scanQuoted_escapeQuoted rest c.advance.offset text.toList
  have hquoted : c.quoted = ⟨text.toList, stop, ⟨stop, rest⟩, true⟩ := by
    rw [Cursor.quoted, Cursor.advance_rest, hr]
    exact hscan
  refine ⟨_, _, .quoted (Cursor.peek_of_rest hr) (by rw [hquoted]), ?_, ?_⟩
  · rw [hquoted, ht]
    simp only [ScalarScan.literal, String.ofList_toList, Literal.unspanned]
  · rw [hquoted]

theorem Literal.derivedAt_word {text : String} {s : List Char} (k : Nat) (span : Span)
    (ht : text ≠ "") (hs : SpellsWord text.toList s) (hr : c.rest = s ++ rest)
    (hstops : Place.nested.Stops rest) :
    (Literal.scalar text span).DerivedAt limit (k + 1) c rest := by
  obtain ⟨stop, after, hscan⟩ := scanBareword_spelled hs .nested hstops c.offset
  have hword : c.word (k + 1) = ⟨text.toList, stop, ⟨after, dropBlanks rest⟩, true⟩ := by
    rw [Cursor.word, hr]
    exact hscan
  obtain ⟨ch, cs, rfl, hch⟩ := hs.head (by simpa using ht)
  have hbegins : c.BeginsWord (k + 1) := by
    rw [Cursor.BeginsWord, Cursor.peek_of_rest hr]
    rcases hch with hch | rfl
    · obtain ⟨he, -, ho⟩ := of_not_mem_structuralChars hch.2
      exact ⟨ho, fun _ => he⟩
    · exact ⟨by decide, fun _ => by decide⟩
  refine ⟨_, _, .word hbegins, ?_, ?_⟩
  · rw [hword]
    simp only [ScalarScan.literal, String.ofList_toList, Literal.filled, Literal.unspanned]
  · rw [hword]
    exact dropBlanks_dropBlanks rest

/-! ### Containers -/

open Reading (head_dropBlanks_items head_dropBlanks_entries stops_cons)

theorem Literal.derivedAt_list {is : List Literal} {s : List Char} {k : Nat} (span : Span)
    (hw : WritesItems is s) (hk : k < limit) (hr : c.rest = '[' :: (s ++ ']' :: rest))
    (hitems : is ≠ [] → c.inside.rest = dropBlanks (s ++ ']' :: rest) →
      DerivedItemsAt limit (k + 1) c.inside is rest) :
    (Literal.list is span).DerivedAt limit k c rest := by
  have ho := Cursor.peek_of_rest hr
  have hinside := Cursor.inside_rest hr
  by_cases his : is = []
  · subst his
    cases hw with
    | none hb =>
      rw [dropBlanks_append hb, dropBlanks_cons (by decide)] at hinside
      refine ⟨_, _, .emptyList hk ho (Cursor.peek_of_rest hinside), ?_, ?_⟩
      · simp only [Literal.filled, Literal.filledItems, Literal.unspanned]
      · rw [Cursor.advance_rest, hinside]
        rfl
  · obtain ⟨v, d, vs, e, hv, hvs, hsame, he⟩ := hitems his hinside
    refine ⟨_, _, .list hk ho hv hvs, ?_, by rw [he]⟩
    simp only [Literal.filled, Literal.unspanned, hsame]

theorem Literal.derivedAt_map {es : List (Literal × Literal)} {s : List Char} {k : Nat}
    (span : Span) (hw : WritesEntries es s) (hk : k < limit)
    (hr : c.rest = '\x7b' :: (s ++ '\x7d' :: rest))
    (hentries : es ≠ [] → c.inside.rest = dropBlanks (s ++ '\x7d' :: rest) →
      DerivedEntriesAt limit (k + 1) c.inside es rest) :
    (Literal.map es span).DerivedAt limit k c rest := by
  have ho := Cursor.peek_of_rest hr
  have hinside := Cursor.inside_rest hr
  by_cases hes : es = []
  · subst hes
    cases hw with
    | none hb =>
      rw [dropBlanks_append hb, dropBlanks_cons (by decide)] at hinside
      refine ⟨_, _, .emptyMap hk ho (Cursor.peek_of_rest hinside), ?_, ?_⟩
      · simp only [Literal.filled, Literal.filledEntries, Literal.unspanned]
      · rw [Cursor.advance_rest, hinside]
        rfl
  · obtain ⟨entry, d, entries, e, hv, hvs, hsame, he⟩ := hentries hes hinside
    refine ⟨_, _, .map hk ho hv hvs, ?_, by rw [he]⟩
    simp only [Literal.filled, Literal.unspanned, hsame]

mutual

/-- **A spelling in a container is derived.** -/
theorem Spells.derives : ∀ {t : Literal} {s : List Char}, Spells t s → ∀ {k : Nat} {c : Cursor}
    {rest : List Char}, c.rest = s ++ rest → Place.nested.Stops rest → t.depth + (k + 1) ≤ limit →
      t.DerivedAt limit (k + 1) c rest
  | _, _, .empty span, k, c, rest, hr, _, _ => by
    have hq : (quote "").toList = ['"', '"'] := by simp [toList_quote, escapeQuoted]
    exact Literal.derivedAt_quote (k + 1) span rfl (hq ▸ hr)
  | _, _, .quoted text span, k, _, _, hr, _, _ => Literal.derivedAt_quote (k + 1) span rfl hr
  | _, _, .bare span ht h, k, _, _, hr, hstops, _ => Literal.derivedAt_word k span ht h hr hstops
  | _, _, .list span h, k, c, rest, hr, _, hd => by
    rw [List.cons_append, List.append_assoc] at hr
    rw [Literal.depth] at hd
    exact Literal.derivedAt_list span h (by omega) hr fun hne hinside =>
      h.derives hne hinside (by omega)
  | _, _, .map span h, k, c, rest, hr, _, hd => by
    rw [List.cons_append, List.append_assoc] at hr
    rw [Literal.depth] at hd
    exact Literal.derivedAt_map span h (by omega) hr fun hne hinside =>
      h.derives hne hinside (by omega)

theorem Writes.derives : ∀ {t : Literal} {s : List Char}, Writes t s → ∀ {k : Nat} {c : Cursor}
    {rest : List Char}, c.rest = dropBlanks (s ++ rest) → Place.nested.Stops rest →
      t.depth + (k + 1) ≤ limit → t.DerivedAt limit (k + 1) c rest
  | _, _, @Writes.mk _ before s after hb h ha, k, c, rest, hr, hstops, hd => by
    rw [List.append_assoc, dropBlanks_append hb, List.append_assoc, dropBlanks_spells h] at hr
    have hstops' : Place.nested.Stops (after ++ rest) := by
      rw [Place.Stops, dropBlanks_append ha]
      exact hstops
    obtain ⟨v, d, hv, hsame, hrest⟩ := h.derives hr hstops' hd
    exact ⟨v, d, hv, hsame, by rw [hrest, dropBlanks_append ha]⟩

theorem WritesItems.derives : ∀ {is : List Literal} {s : List Char}, WritesItems is s → is ≠ [] →
    ∀ {k : Nat} {c : Cursor} {rest : List Char}, c.rest = dropBlanks (s ++ ']' :: rest) →
      Literal.depthItems is + (k + 1) ≤ limit → DerivedItemsAt limit (k + 1) c is rest
  | _, _, .none _, hne, _, _, _, _, _ => absurd rfl hne
  | _, _, @WritesItems.last i s h, _, k, c, rest, hr, hd => by
    rw [Literal.depthItems] at hd
    have hdi : i.depth + (k + 1) ≤ limit := by omega
    obtain ⟨v, d, hv, hsame, hrest⟩ := h.derives hr (stops_cons (by decide) (by decide) rest) hdi
    obtain ⟨hc, hadvance, -⟩ := Cursor.peek_behind hrest (by decide)
    refine ⟨v, d, [], _, hv, .close hc, ?_, hadvance⟩
    simp only [Literal.filledItems, Literal.unspannedItems, hsame]
  | _, _, @WritesItems.more i j is s ss h hs, _, k, c, rest, hr, hd => by
    rw [List.append_assoc, List.cons_append] at hr
    rw [Literal.depthItems] at hd
    have hdi : i.depth + (k + 1) ≤ limit := by omega
    have hdis : Literal.depthItems (j :: is) + (k + 1) ≤ limit := by omega
    obtain ⟨v, d, hv, hsame, hrest⟩ := h.derives hr (stops_cons (by decide) (by decide) _) hdi
    obtain ⟨hc, -, hinside⟩ := Cursor.peek_behind hrest (by decide)
    obtain ⟨w, d', ws, e, hw, hws, hsames, he⟩ := hs.derives (by simp) hinside hdis
    refine ⟨v, d, w :: ws, e, hv, .more hc hw hws, ?_, he⟩
    rw [Literal.unspannedItems, hsames, hsame]
    rfl

theorem WritesEntries.derives : ∀ {es : List (Literal × Literal)} {s : List Char},
    WritesEntries es s → es ≠ [] → ∀ {k : Nat} {c : Cursor} {rest : List Char},
      c.rest = dropBlanks (s ++ '\x7d' :: rest) → Literal.depthEntries es + (k + 1) ≤ limit →
        DerivedEntriesAt limit (k + 1) c es rest
  | _, _, .none _, hne, _, _, _, _, _ => absurd rfl hne
  | _, _, @WritesEntries.last key value s s' hkey hvalue, _, k, c, rest, hr, hd => by
    rw [List.append_assoc, List.cons_append] at hr
    rw [Literal.depthEntries] at hd
    have hdk : key.depth + (k + 1) ≤ limit := by omega
    have hdv : value.depth + (k + 1) ≤ limit := by omega
    obtain ⟨l, d, hl, hkeys, hrest⟩ := hkey.derives hr (stops_cons (by decide) (by decide) _) hdk
    obtain ⟨heq, -, hinside⟩ := Cursor.peek_behind hrest (by decide)
    obtain ⟨w, e, hw, hvalues, hrest'⟩ :=
      hvalue.derives hinside (stops_cons (by decide) (by decide) rest) hdv
    obtain ⟨hc, hadvance, -⟩ := Cursor.peek_behind hrest' (by decide)
    refine ⟨(l, w), e, [], _, .mk hl heq hw, .close hc, ?_, hadvance⟩
    simp only [Literal.filledEntries, Literal.unspannedEntries, hkeys, hvalues]
  | _, _, @WritesEntries.more key value entry entries s s' ss hkey hvalue hs, _, k, c, rest, hr,
      hd => by
    simp only [List.append_assoc, List.cons_append] at hr
    rw [Literal.depthEntries] at hd
    have hdk : key.depth + (k + 1) ≤ limit := by omega
    have hdv : value.depth + (k + 1) ≤ limit := by omega
    have hds : Literal.depthEntries (entry :: entries) + (k + 1) ≤ limit := by omega
    obtain ⟨l, d, hl, hkeys, hrest⟩ := hkey.derives hr (stops_cons (by decide) (by decide) _) hdk
    obtain ⟨heq, -, hinside⟩ := Cursor.peek_behind hrest (by decide)
    obtain ⟨w, e, hw, hvalues, hrest'⟩ :=
      hvalue.derives hinside (stops_cons (by decide) (by decide) _) hdv
    obtain ⟨hc, -, hinside'⟩ := Cursor.peek_behind hrest' (by decide)
    obtain ⟨first, d', others, e', hfirst, hothers, hsame, he⟩ :=
      hs.derives (by simp) hinside' hds
    refine ⟨(l, w), e, first :: others, e', .mk hl heq hw, .more hc hfirst hothers, ?_, he⟩
    rw [Literal.unspannedEntries, hsame, hkeys, hvalues]
    rfl

end

end CommandConsole
