/-
# The spellings of a literal

One literal can be written in many ways: a scalar quoted or bare, any of its
characters behind a backslash, and blanks around every bracket, comma and
equals sign. `Spells t s` says that `s` writes `t` from its first character to
its last one, `Writes t s` that there may also be blanks around. An empty
literal has no spelling of its own: it is written like the empty scalar, so
what is read back is `t.filled`.

Key definitions: `SpellsWord`, `Spells`, `Writes`, `Literal.filled`.
Key theorems: `Spells.head`, `spells_render`, `Literal.filled_eq_self`.
-/
import CommandConsole.Literal.Render

namespace CommandConsole

/-- The characters of the grammar. A bareword holds them only behind a backslash. -/
def structuralChars : List Char := [',', '=', '{', '}', '[', ']', '"', '\\']

/-- The character stands for itself in a bareword, wherever it stands. -/
def IsPlain (c : Char) : Prop := isBlank c = false ∧ c ∉ structuralChars

def AllBlank (cs : List Char) : Prop := ∀ c ∈ cs, isBlank c = true

/-- The bareword `s` stands for the characters `text`. -/
inductive SpellsWord : List Char → List Char → Prop
  | nil : SpellsWord [] []
  | plain {c : Char} {text s : List Char} (hc : IsPlain c) (h : SpellsWord text s) :
      SpellsWord (c :: text) (c :: s)
  | escaped (c : Char) {text s : List Char} (h : SpellsWord text s) :
      SpellsWord (c :: text) ('\\' :: c :: s)

mutual

/-- `s` writes the literal, without blanks around it. -/
inductive Spells : Literal → List Char → Prop
  | empty (span : Span) : Spells (.empty span) ['"', '"']
  | quoted (text : String) (span : Span) : Spells (.scalar text span) (quote text).toList
  | bare {text : String} {s : List Char} (span : Span) (ht : text ≠ "")
      (h : SpellsWord text.toList s) : Spells (.scalar text span) s
  | list {items : List Literal} {s : List Char} (span : Span) (h : WritesItems items s) :
      Spells (.list items span) ('[' :: (s ++ [']']))
  | map {entries : List (Literal × Literal)} {s : List Char} (span : Span)
      (h : WritesEntries entries s) : Spells (.map entries span) ('{' :: (s ++ ['}']))

/-- `s` writes the literal, perhaps with blanks before and after it. -/
inductive Writes : Literal → List Char → Prop
  | mk {t : Literal} {before s after : List Char} (hb : AllBlank before) (h : Spells t s)
      (ha : AllBlank after) : Writes t (before ++ (s ++ after))

/-- What may stand between the brackets of a list. -/
inductive WritesItems : List Literal → List Char → Prop
  | none {blanks : List Char} (hb : AllBlank blanks) : WritesItems [] blanks
  | last {i : Literal} {s : List Char} (h : Writes i s) : WritesItems [i] s
  | more {i j : Literal} {is : List Literal} {s ss : List Char} (h : Writes i s)
      (hs : WritesItems (j :: is) ss) : WritesItems (i :: j :: is) (s ++ ',' :: ss)

/-- What may stand between the braces of a map. -/
inductive WritesEntries : List (Literal × Literal) → List Char → Prop
  | none {blanks : List Char} (hb : AllBlank blanks) : WritesEntries [] blanks
  | last {k v : Literal} {s s' : List Char} (hk : Writes k s) (hv : Writes v s') :
      WritesEntries [(k, v)] (s ++ '=' :: s')
  | more {k v : Literal} {e : Literal × Literal} {es : List (Literal × Literal)}
      {s s' ss : List Char} (hk : Writes k s) (hv : Writes v s')
      (hs : WritesEntries (e :: es) ss) :
      WritesEntries ((k, v) :: e :: es) (s ++ '=' :: (s' ++ ',' :: ss))

end

namespace Literal

mutual

/-- The literal with the empty scalar in place of every empty literal. -/
def filled : Literal → Literal
  | .empty span => .scalar "" span
  | .scalar text span => .scalar text span
  | .list items span => .list (filledItems items) span
  | .map entries span => .map (filledEntries entries) span

def filledItems : List Literal → List Literal
  | [] => []
  | i :: is => filled i :: filledItems is

def filledEntries : List (Literal × Literal) → List (Literal × Literal)
  | [] => []
  | (k, v) :: es => (filled k, filled v) :: filledEntries es

end

mutual

/-- No node of the literal is empty. -/
def EmptyFree : Literal → Prop
  | .empty _ => False
  | .scalar _ _ => True
  | .list items _ => EmptyFreeItems items
  | .map entries _ => EmptyFreeEntries entries

def EmptyFreeItems : List Literal → Prop
  | [] => True
  | i :: is => EmptyFree i ∧ EmptyFreeItems is

def EmptyFreeEntries : List (Literal × Literal) → Prop
  | [] => True
  | (k, v) :: es => (EmptyFree k ∧ EmptyFree v) ∧ EmptyFreeEntries es

end

mutual

theorem filled_eq_self : ∀ t : Literal, t.EmptyFree → t.filled = t
  | .empty _, h => h.elim
  | .scalar _ _, _ => rfl
  | .list items _, h => by rw [filled, filledItems_eq_self items h]
  | .map entries _, h => by rw [filled, filledEntries_eq_self entries h]

theorem filledItems_eq_self : ∀ items : List Literal, EmptyFreeItems items →
    filledItems items = items
  | [], _ => rfl
  | i :: is, h => by rw [filledItems, filled_eq_self i h.1, filledItems_eq_self is h.2]

theorem filledEntries_eq_self : ∀ entries : List (Literal × Literal), EmptyFreeEntries entries →
    filledEntries entries = entries
  | [], _ => rfl
  | (k, v) :: es, h => by
    rw [filledEntries, filled_eq_self k h.1.1, filled_eq_self v h.1.2,
      filledEntries_eq_self es h.2]

end

end Literal

/-! ### The first character -/

theorem toList_quote (text : String) :
    (quote text).toList = '"' :: (escapeQuoted text.toList ++ ['"']) := by
  simp [quote]

theorem ends_subset_structuralChars : [',', '=', '}', ']'] ⊆ structuralChars := by decide

theorem structuralChars_subset_mustBeQuoted : structuralChars ⊆ mustBeQuoted := by decide

theorem IsPlain.not_mem_ends {c : Char} (hc : IsPlain c) : c ∉ [',', '=', '}', ']'] :=
  fun h => hc.2 (ends_subset_structuralChars h)

theorem SpellsWord.head {text s : List Char} (h : SpellsWord text s) (ht : text ≠ []) :
    ∃ c cs, s = c :: cs ∧ (IsPlain c ∨ c = '\\') := by
  cases h with
  | nil => exact absurd rfl ht
  | plain hc _ => exact ⟨_, _, rfl, .inl hc⟩
  | escaped c _ => exact ⟨'\\', _, rfl, .inr rfl⟩

/-- A spelling begins with a character that is not blank and does not end a bareword. -/
theorem Spells.head {t : Literal} {s : List Char} (h : Spells t s) :
    ∃ c cs, s = c :: cs ∧ isBlank c = false ∧ c ∉ [',', '=', '}', ']'] := by
  cases h with
  | empty => exact ⟨'"', _, rfl, by decide, by decide⟩
  | quoted text => exact ⟨'"', _, toList_quote text, by decide, by decide⟩
  | bare span ht h =>
    obtain ⟨c, cs, rfl, hc | rfl⟩ := h.head (by simpa using ht)
    · exact ⟨c, cs, rfl, hc.1, hc.not_mem_ends⟩
    · exact ⟨'\\', cs, rfl, by decide, by decide⟩
  | list => exact ⟨'[', _, rfl, by decide, by decide⟩
  | map => exact ⟨'{', _, rfl, by decide, by decide⟩

/-! ### Blanks in front -/

theorem AllBlank.append {a b : List Char} (ha : AllBlank a) (hb : AllBlank b) :
    AllBlank (a ++ b) := by
  intro c hc
  rcases List.mem_append.mp hc with hc | hc
  · exact ha c hc
  · exact hb c hc

theorem AllBlank.nil : AllBlank [] := by
  intro c hc
  cases hc

theorem Spells.writes {t : Literal} {s : List Char} (h : Spells t s) : Writes t s := by
  simpa using Writes.mk AllBlank.nil h AllBlank.nil

theorem Writes.parts {t : Literal} {cs : List Char} (h : Writes t cs) :
    ∃ before s after, cs = before ++ (s ++ after) ∧ AllBlank before ∧ Spells t s ∧
      AllBlank after := by
  cases h with
  | mk hb h ha => exact ⟨_, _, _, rfl, hb, h, ha⟩

theorem Writes.blanks_before {t : Literal} {s b : List Char} (h : Writes t s) (hb : AllBlank b) :
    Writes t (b ++ s) := by
  cases h with
  | mk hb' h ha =>
    rw [← List.append_assoc]
    exact .mk (hb.append hb') h ha

theorem WritesItems.blanks_before {items : List Literal} {s b : List Char}
    (h : WritesItems items s) (hb : AllBlank b) : WritesItems items (b ++ s) := by
  cases h with
  | none hs => exact .none (hb.append hs)
  | last h => exact .last (h.blanks_before hb)
  | more h hs =>
    rw [← List.append_assoc]
    exact .more (h.blanks_before hb) hs

theorem WritesEntries.blanks_before {entries : List (Literal × Literal)} {s b : List Char}
    (h : WritesEntries entries s) (hb : AllBlank b) : WritesEntries entries (b ++ s) := by
  cases h with
  | none hs => exact .none (hb.append hs)
  | last hk hv =>
    rw [← List.append_assoc]
    exact .last (hk.blanks_before hb) hv
  | more hk hv hs =>
    rw [← List.append_assoc]
    exact .more (hk.blanks_before hb) hv hs

/-! ### The written form is a spelling -/

theorem spellsWord_self : ∀ text : List Char, (∀ c ∈ text, IsPlain c) → SpellsWord text text
  | [], _ => .nil
  | c :: cs, h =>
    .plain (h c List.mem_cons_self) (spellsWord_self cs fun d hd => h d (List.mem_cons_of_mem _ hd))

theorem isPlain_of_needsQuotes {text : String} (h : needsQuotes text = false) :
    text ≠ "" ∧ ∀ c ∈ text.toList, IsPlain c := by
  unfold needsQuotes at h
  split at h
  · cases h
  · rename_i c cs hcs
    simp only [Bool.or_eq_false_iff, List.any_eq_false, Bool.or_eq_true, not_or,
      Bool.not_eq_true] at h
    refine ⟨fun he => by simp [he] at hcs, fun d hd => ?_⟩
    obtain ⟨hb, hm⟩ := h.2 d (hcs ▸ hd)
    refine ⟨hb, fun hs => ?_⟩
    have : d ∈ mustBeQuoted := structuralChars_subset_mustBeQuoted hs
    simp [this] at hm

theorem spells_renderScalar (text : String) (span : Span) :
    Spells (.scalar text span) (renderScalar text).toList := by
  unfold renderScalar
  split
  · exact .quoted text span
  · rename_i h
    obtain ⟨hne, hp⟩ := isPlain_of_needsQuotes (by simpa using h)
    exact .bare span hne (spellsWord_self _ hp)

theorem allBlank_space : AllBlank [' '] := by
  intro c hc
  rw [List.mem_singleton.mp hc]
  decide

mutual

/-- The written form of a literal is one of its spellings. -/
theorem spells_render : ∀ t : Literal, Spells t t.render.toList
  | .empty span => by simpa [Literal.render] using Spells.empty span
  | .scalar text span => by simpa [Literal.render] using spells_renderScalar text span
  | .list items span => by
    simpa [Literal.render] using Spells.list span (writesItems_render items)
  | .map entries span => by
    simpa [Literal.render] using Spells.map span (writesEntries_render entries)

theorem writesItems_render : ∀ items : List Literal,
    WritesItems items (Literal.renderItems items).toList
  | [] => by simpa [Literal.renderItems] using WritesItems.none AllBlank.nil
  | [i] => by simpa [Literal.renderItems] using WritesItems.last (spells_render i).writes
  | i :: j :: is => by
    have hs := (writesItems_render (j :: is)).blanks_before allBlank_space
    simpa [Literal.renderItems] using WritesItems.more (spells_render i).writes hs

theorem writesEntries_render : ∀ entries : List (Literal × Literal),
    WritesEntries entries (Literal.renderEntries entries).toList
  | [] => by simpa [Literal.renderEntries] using WritesEntries.none AllBlank.nil
  | [(k, v)] => by
    simpa [Literal.renderEntries] using
      WritesEntries.last (spells_render k).writes (spells_render v).writes
  | (k, v) :: e :: es => by
    have hs := (writesEntries_render (e :: es)).blanks_before allBlank_space
    simpa [Literal.renderEntries] using
      WritesEntries.more (spells_render k).writes (spells_render v).writes hs

end

end CommandConsole
