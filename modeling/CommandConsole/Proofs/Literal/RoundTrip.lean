/-
# Every spelling of a literal is read back

What is read back is the literal itself, up to spans and with empty scalars
for empty literals, if its containers fit into the nesting limit; if they do
not, the limit is what the reader reports. The written form of a literal is one
of its spellings, so writing and reading are inverse on literals without empty
nodes.

Key theorems: `readValue_spells`, `parseLiteral_writes`.
-/
import CommandConsole.Proofs.Literal.Reading

namespace CommandConsole

open Reading

variable {limit : Nat} {t : Literal} {s rest : List Char} {c : Cursor}

theorem run_of_hasRead {r : Reading} (h : HasRead t [] rest r) :
    ∃ v stop, r.run limit = .ok (v, stop) ∧ v.unspanned = t.filled.unspanned ∧
      stop.rest = rest := by
  obtain ⟨⟨v, hp, hv⟩, ho, -, he⟩ := h
  refine ⟨v, r.cursor, run_done ?_, hv, he rfl⟩
  simp [step, hp, endValue, ho]

/-- A spelling in front of a blank or the end of the line is read as one value. -/
theorem readValue_spells (h : Spells t s) (hc : c.rest = s ++ rest)
    (hstops : Place.topLevel.Stops rest) (hd : t.depth ≤ limit) :
    ∃ v stop, readValue limit c = .ok (v, stop) ∧ v.unspanned = t.filled.unspanned ∧
      stop.rest = rest := by
  have hrun := @leadsTo_spells limit _ _ h (start c) _ rfl hc hstops (Nat.zero_le _)
  obtain ⟨next, hnext, hn⟩ := hrun.1 hd
  rw [readValue, hnext]
  exact run_of_hasRead hn

/-- A spelling with too many containers in each other is refused at the limit. -/
theorem readValue_spells_too_deep (h : Spells t s) (hc : c.rest = s ++ rest)
    (hstops : Place.topLevel.Stops rest) (hd : limit < t.depth) :
    ∃ f, readValue limit c = .error f ∧ f.kind = .nestingLimitExceeded limit := by
  have hrun := @leadsTo_spells limit _ _ h (start c) _ rfl hc hstops (Nat.zero_le _)
  exact hrun.2 (Nat.not_le.mpr hd)

/-- What begins with neither a bracket nor a quote is read as one bareword. -/
theorem readValue_word (limit : Nat) {ch : Char} {cs : List Char} (hc : c.rest = ch :: cs)
    (ho : opensGroup ch = false) : readValue limit c =
      .ok (.scalar (String.ofList (scanBareword .topLevel 0 c.offset c.rest).text)
        ⟨c.offset, (scanBareword .topLevel 0 c.offset c.rest).stop⟩,
          (scanBareword .topLevel 0 c.offset c.rest).after) := by
  have hrest : (start c).cursor.rest = ch :: cs := hc
  have hstep : (start c).step limit = .go (start c).acceptBareword :=
    beginValue_topLevel hrest rfl ho
  rw [readValue, run_go hstep, run_acceptBareword rfl]
  rfl

theorem stops_allBlank (h : AllBlank rest) : Place.topLevel.Stops rest := by
  intro c hc
  exact h c (List.mem_of_mem_head? hc)

theorem parseLiteral_of_readValue {text : String} {v : Literal} {stop : Cursor}
    (h : readValue limit (Cursor.start text).skipBlanks = .ok (v, stop)) (hr : AllBlank stop.rest) :
    parseLiteral limit text = .ok v := by
  have hend : stop.skipBlanks.atEnd = true := by
    simp [Cursor.atEnd, dropBlanks_of_allBlank hr]
  simp [parseLiteral, h, hend, bind, Except.bind]

/-- A literal without empty nodes is read from its written form, up to spans. -/
theorem parseLiteral_render (hfree : t.EmptyFree) (hd : t.depth ≤ limit) :
    ∃ v, parseLiteral limit t.render = .ok v ∧ v.unspanned = t.unspanned := by
  have hspells : Spells t t.render.toList := spells_render t
  have hrest : (Cursor.start t.render).skipBlanks.rest = t.render.toList ++ [] := by
    rw [Cursor.skipBlanks_rest, Cursor.start]
    simpa using dropBlanks_spells hspells []
  have hblank : AllBlank [] := fun c hc => by cases hc
  obtain ⟨v, stop, hv, hu, hstop⟩ := readValue_spells hspells hrest (stops_allBlank hblank) hd
  refine ⟨v, parseLiteral_of_readValue hv (hstop ▸ hblank), ?_⟩
  rw [hu, Literal.filled_eq_self t hfree]

theorem parseLiteral_of_readValue_error {text : String} {f : LiteralFailure}
    (h : readValue limit (Cursor.start text).skipBlanks = .error f) :
    parseLiteral limit text = .error f := by
  simp [parseLiteral, h, bind, Except.bind]

/-- **Every spelling is read back, if its containers fit into the limit, and refused at the limit
if they do not.** The written form is one of the spellings. -/
theorem parseLiteral_writes (limit : Nat) (t : Literal) :
    (∀ text : String, Writes t text.toList →
      (t.depth ≤ limit → ∃ v, parseLiteral limit text = .ok v ∧ v.same t.filled = true ∧
        (t.EmptyFree → v.same t = true)) ∧
      (limit < t.depth → ∃ f, parseLiteral limit text = .error f ∧
        f.kind = .nestingLimitExceeded limit)) ∧
    Writes t t.render.toList := by
  refine ⟨fun text hw => ?_, (spells_render t).writes⟩
  obtain ⟨before, s, after, htext, hb, hs, ha⟩ := hw.parts
  have hrest : (Cursor.start text).skipBlanks.rest = s ++ after := by
    rw [Cursor.skipBlanks_rest, Cursor.start, htext, dropBlanks_append hb, dropBlanks_spells hs]
  constructor
  · intro hd
    obtain ⟨v, stop, hv, hu, hstop⟩ := readValue_spells hs hrest (stops_allBlank ha) hd
    have hsame : v.same t.filled = true := (Literal.same_iff ..).mpr hu
    refine ⟨v, parseLiteral_of_readValue hv (hstop ▸ ha), hsame, fun he => ?_⟩
    rw [Literal.same_iff, hu, Literal.filled_eq_self t he]
  · intro hd
    obtain ⟨f, hf, hk⟩ := readValue_spells_too_deep hs hrest (stops_allBlank ha) hd
    exact ⟨f, parseLiteral_of_readValue_error hf, hk⟩

/-- A map in a map entry, with blanks, an escaped blank and an empty literal. -/
theorem parseLiteral_writes_entry :
    let t : Literal := .map [(.scalar "a b" default, .list [.empty default, .scalar "x" default]
      default)] default
    let text := " \x7b a\\ b = [ \"\" ,x]\x7d "
    Writes t text.toList ∧ (∃ v, parseLiteral 2 text = .ok v ∧ v.same t.filled = true) ∧
      ∃ f, parseLiteral 1 text = .error f ∧ f.kind = .nestingLimitExceeded 1 := by
  intro t text
  have ha : IsPlain 'a' := by unfold IsPlain; decide
  have hb : IsPlain 'b' := by unfold IsPlain; decide
  have hxs : ∀ c ∈ "x".toList, IsPlain c := by
    intro c hc
    obtain rfl : c = 'x' := by simpa using hc
    unfold IsPlain
    decide
  have hword : SpellsWord "a b".toList ['a', '\\', ' ', 'b'] :=
    .plain ha (.escaped ' ' (.plain hb .nil))
  have hkey : Writes (.scalar "a b" default) [' ', 'a', '\\', ' ', 'b', ' '] :=
    .mk allBlank_space (.bare default (by decide) hword) allBlank_space
  have hx : Writes (.scalar "x" default) "x".toList :=
    (Spells.bare default (by decide) (spellsWord_self _ hxs)).writes
  have hempty : Writes (.empty default) [' ', '"', '"', ' '] :=
    .mk allBlank_space (.empty default) allBlank_space
  have hlist : Writes (.list [.empty default, .scalar "x" default] default)
      [' ', '[', ' ', '"', '"', ' ', ',', 'x', ']'] :=
    .mk allBlank_space (.list default (.more hempty (.last hx))) AllBlank.nil
  have htext : text.toList = [' ', '\x7b', ' ', 'a', '\\', ' ', 'b', ' ', '=', ' ', '[', ' ', '"',
      '"', ' ', ',', 'x', ']', '\x7d', ' '] := by decide
  have hw : Writes t text.toList := by
    rw [htext]
    exact .mk allBlank_space (.map default (.last hkey hlist)) allBlank_space
  have h2 := ((parseLiteral_writes 2 t).1 text hw).1 (by decide)
  have h1 := ((parseLiteral_writes 1 t).1 text hw).2 (by decide)
  obtain ⟨v, hv, hs, -⟩ := h2
  exact ⟨hw, ⟨v, hv, hs⟩, h1⟩

end CommandConsole
